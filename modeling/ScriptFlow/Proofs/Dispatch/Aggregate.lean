import ScriptFlow.Proofs.Dispatch.Arguments
import ScriptFlow.Proofs.Dispatch.Receivers
import ScriptFlow.Proofs.Stateful

/-! The result of a call is exact for what its targets say. Each class of the receiver gives one or
more trials, and the joint result can be read off the list of all of them. -/

namespace ScriptFlow

variable {ts : List Trial} {seen unseen : Bool} {res : Resolution}

/-- How a call fares for one class of its receiver and one combination of arguments. -/
inductive Trial where
  | missing
  | hidden
  | rejected
  | answered (m : MethodSummary)
deriving DecidableEq

namespace Trial

def fails : Trial → Bool
  | .answered m => m.frequency != .never
  | _ => true

def succeeds : Trial → Bool
  | .answered m => m.frequency != .always
  | _ => false

def returns : Trial → Ty
  | .answered m => if m.frequency = .always then .empty else m.returns
  | _ => .empty

def raises : Trial → Ty
  | .missing | .hidden => .exact CoreClass.noMethodError
  | .rejected => .exact CoreClass.argumentError
  | .answered m => if m.frequency = .never then .empty else m.raises

/-- A method was found and is open to the caller. -/
def reaches : Trial → Bool
  | .missing | .hidden => false
  | .rejected | .answered _ => true

end Trial

/-- The result says of the trials neither more nor less than what they say together. -/
structure DispatchResult.Exact (d : DispatchResult) (ts : List Trial) : Prop where
  never : d.frequency = .never ↔ ∀ t ∈ ts, t.fails = false
  always : d.frequency = .always ↔ ∀ t ∈ ts, t.succeeds = false
  returns : d.returns = .joinAll (ts.map Trial.returns)
  raises : d.raises = .joinAll (ts.map Trial.raises)

namespace Resolver

variable {σ : Type} (r : Resolver) (source : Summaries σ) (name : String) (ignoreVisibility : Bool)
  (args : Option (List Ty)) (block : Ty)

/-- Asks an open method, once for each combination of arguments. -/
def ask (receiver : Ty) (method : MethodId) : StateM σ (List Trial) :=
  if args.all fun ts => r.fits method ts.length then do
    return (← (argumentTuples args).mapM fun tuple =>
      source.summarize method receiver tuple block).map Trial.answered
  else pure [.rejected]

/-- What comes of the call when the receiver has the given class. -/
def attempt (cls : ModuleId) (receiver : Ty) : StateM σ (List Trial) :=
  match r.table.instanceMethod? cls name with
  | none => pure [.missing]
  | some m =>
    if ignoreVisibility || r.isVisible cls name m then r.ask source args block receiver m
    else pure [.hidden]

def attempts (ks : List (ModuleId × Ty)) : StateM σ (List Trial) := do
  return (← ks.mapM fun k => r.attempt source name ignoreVisibility args block k.1 k.2).flatten

def trials (receiver : Ty) : StateM σ (List Trial) :=
  r.attempts source name ignoreVisibility args block (receiverClasses r.table receiver)

end Resolver

/-! Sampling is folding over trials. -/

def Samples.add (s : Samples) : Trial → Samples
  | .missing | .hidden => s
  | .rejected => { s with wrongCount := true }
  | .answered m => { s with rightCount := true }.record m

theorem Samples.foldl_record {s : Samples} (right : s.rightCount = true) (ms : List MethodSummary) :
    ms.foldl Samples.record s = (ms.map Trial.answered).foldl Samples.add s := by
  induction ms generalizing s with
  | nil => rfl
  | cons m ms ih =>
    have same : { s with rightCount := true } = s := by rw [← right]
    rw [List.foldl_cons, List.map_cons, List.foldl_cons, add, same]
    exact ih right

theorem argumentTuples_ne_nil (args : Option (List Ty)) : argumentTuples args ≠ [] := by
  unfold argumentTuples
  split
  · simp
  · split
    · simp
    · simpa using choices_ne_nil _

namespace Resolver

variable {σ : Type} (r : Resolver) (source : Summaries σ) (name : String) (ignoreVisibility : Bool)
  (args : Option (List Ty)) (block : Ty)

theorem sample_eq (s : Samples) (t : Target) :
    r.sample source args block s t =
      do return (← r.ask source args block t.receiver t.method).foldl Samples.add s := by
  unfold sample ask
  split
  · obtain ⟨tuple, tuples, all⟩ := List.exists_cons_of_ne_nil (argumentTuples_ne_nil args)
    rw [all, foldlM_bind_eq_mapM]
    simp only [List.mapM_cons, bind_assoc, pure_bind, List.foldl_cons, List.map_cons, Samples.add]
    have right : ∀ m, ({ s with rightCount := true }.record m).rightCount = true := fun _ => rfl
    simp only [Samples.foldl_record (right _)]
  · rfl

/-- Files receiver classes one after another, as `resolve` does. -/
def fileAll (acc : Resolution) (ks : List (ModuleId × Ty)) : Resolution :=
  ks.foldl
    (fun acc k =>
      place acc k.1 k.2 (fun m => ignoreVisibility || r.isVisible k.1 name m)
        (r.table.instanceMethod? k.1 name))
    acc

theorem resolve_eq {receiver : Ty} (known : receiver.isTop = false) :
    r.resolve receiver name ignoreVisibility =
      r.fileAll name ignoreVisibility default (receiverClasses r.table receiver) := by
  rw [resolve, known, if_neg Bool.false_ne_true]
  exact foldl_file (fun k m => ignoreVisibility || r.isVisible k name m)
    (r.table.instanceMethod? · name) (nodup_receiverClasses ..) fun _ none => nomatch none

theorem unknown_fileAll (acc : Resolution) (ks : List (ModuleId × Ty)) :
    (r.fileAll name ignoreVisibility acc ks).unknown = acc.unknown := by
  induction ks generalizing acc with
  | nil => rfl
  | cons k ks ih =>
    rw [fileAll, List.foldl_cons, ← fileAll, ih]
    unfold place
    split
    · rfl
    · split <;> rfl

theorem attempts_cons (k : ModuleId × Ty) (ks : List (ModuleId × Ty)) :
    r.attempts source name ignoreVisibility args block (k :: ks) = do
      let first ← r.attempt source name ignoreVisibility args block k.1 k.2
      return first ++ (← r.attempts source name ignoreVisibility args block ks) := by
  simp [attempts]

/-- The open targets of the classes filed, sampled in turn, give what the trials of these classes
give. -/
theorem exists_accessible_fileAll (acc : Resolution) (ks : List (ModuleId × Ty)) :
    ∃ targets, (r.fileAll name ignoreVisibility acc ks).accessible = acc.accessible ++ targets ∧
      ∀ s, targets.foldlM (r.sample source args block) s =
        do return (← r.attempts source name ignoreVisibility args block ks).foldl Samples.add s := by
  induction ks generalizing acc with
  | nil => exact ⟨[], by simp [fileAll], by simp [attempts]⟩
  | cons k ks ih =>
    rw [fileAll, List.foldl_cons, ← fileAll]
    simp only [attempts_cons, attempt, place]
    cases r.table.instanceMethod? k.1 name with
    | none =>
      obtain ⟨targets, filed, sampled⟩ := ih { acc with missing := acc.missing ++ [k.1] }
      refine ⟨targets, filed, fun s => ?_⟩
      simp [sampled, Samples.add]
    | some m =>
      dsimp only
      split
      · obtain ⟨targets, filed, sampled⟩ :=
          ih { acc with accessible := acc.accessible ++ [⟨k.1, k.2, m⟩] }
        refine ⟨⟨k.1, k.2, m⟩ :: targets, by simp [filed], fun s => ?_⟩
        simp only [List.foldlM_cons, sample_eq, sampled, bind_assoc, pure_bind, List.foldl_append]
      · obtain ⟨targets, filed, sampled⟩ :=
          ih { acc with concealed := acc.concealed ++ [⟨k.1, k.2, m⟩] }
        refine ⟨targets, filed, fun s => ?_⟩
        simp [sampled, Samples.add]

/-- A resolution and trials that agree on what happens to the classes of the receiver. -/
structure Agree (res : Resolution) (ts : List Trial) : Prop where
  missing : res.missing = [] ↔ .missing ∉ ts
  concealed : res.concealed = [] ↔ .hidden ∉ ts
  accessible : res.accessible = [] ↔ ∀ t ∈ ts, t.reaches = false

theorem exists_ask_run (receiver : Ty) (method : MethodId) (a : σ) :
    ∃ t ts b, (r.ask source args block receiver method).run a = (t :: ts, b) ∧
      ∀ u ∈ t :: ts, u.reaches = true := by
  unfold ask
  split
  · obtain ⟨tuple, tuples, all⟩ := List.exists_cons_of_ne_nil (argumentTuples_ne_nil args)
    rw [all, List.mapM_cons]
    refine ⟨_, _, _, rfl, ?_⟩
    simp [Trial.reaches]
  · exact ⟨.rejected, [], a, rfl, by simp [Trial.reaches]⟩

theorem Agree.attempt {acc : Resolution} {seen : List Trial} (agree : Agree acc seen)
    (k : ModuleId × Ty) (a : σ) :
    ∃ ts b, (r.attempt source name ignoreVisibility args block k.1 k.2).run a = (ts, b) ∧ ts ≠ [] ∧
      Agree (r.fileAll name ignoreVisibility acc [k]) (seen ++ ts) := by
  unfold Resolver.attempt
  simp only [fileAll, List.foldl_cons, List.foldl_nil, place]
  cases r.table.instanceMethod? k.1 name with
  | none =>
    refine ⟨[.missing], a, rfl, by simp, ?_, ?_, ?_⟩
    · simp
    · simpa using agree.concealed
    · simpa [or_imp, forall_and, Trial.reaches] using agree.accessible
  | some m =>
    dsimp only
    split
    · obtain ⟨t, ts, b, run, reached⟩ := r.exists_ask_run source args block k.2 m a
      have not_missing : .missing ∉ t :: ts := fun found => by cases reached _ found
      have not_hidden : .hidden ∉ t :: ts := fun found => by cases reached _ found
      refine ⟨t :: ts, b, run, by simp, ?_, ?_, ?_⟩
      · rw [List.mem_append, agree.missing]
        simp only [not_missing, or_false]
      · rw [List.mem_append, agree.concealed]
        simp only [not_hidden, or_false]
      · have first := reached t List.mem_cons_self
        simp [or_imp, forall_and, first]
    · refine ⟨[.hidden], a, rfl, by simp, ?_, ?_, ?_⟩
      · simpa using agree.missing
      · simp
      · simpa [or_imp, forall_and, Trial.reaches] using agree.accessible

theorem Agree.attempts {acc : Resolution} {seen : List Trial} (agree : Agree acc seen)
    (ks : List (ModuleId × Ty)) (a : σ) :
    ∃ ts b, (r.attempts source name ignoreVisibility args block ks).run a = (ts, b) ∧
      (ks ≠ [] → ts ≠ []) ∧ Agree (r.fileAll name ignoreVisibility acc ks) (seen ++ ts) := by
  induction ks generalizing acc seen a with
  | nil =>
    refine ⟨[], a, rfl, fun some_class => absurd rfl some_class, ?_⟩
    rw [List.append_nil]
    exact agree
  | cons k ks ih =>
    obtain ⟨first, b, run, some_trial, agree⟩ :=
      agree.attempt r source name ignoreVisibility args block k a
    obtain ⟨rest, c, run', -, agree⟩ := ih agree b
    refine ⟨first ++ rest, c, ?_, ?_, ?_⟩
    · rw [attempts_cons, run_bind_of_run run, run_bind_of_run run']
      rfl
    · simp [some_trial]
    · rw [← List.append_assoc]
      exact agree

end Resolver

/-! What the samples of trials hold. -/

/-- The samples seen are those of the trials. -/
structure Samples.Of (s : Samples) (ts : List Trial) : Prop where
  wrongCount : s.wrongCount = true ↔ .rejected ∈ ts
  rightCount : s.rightCount = true ↔ ∃ m, .answered m ∈ ts
  raised : s.raised = true ↔ ∃ m, .answered m ∈ ts ∧ m.frequency ≠ .never
  succeeded : s.succeeded = true ↔ ∃ m, .answered m ∈ ts ∧ m.frequency ≠ .always
  returns : s.returns = .joinAll (ts.map Trial.returns)
  raises : ∀ a, a ∈ s.raises.members ↔
    ∃ m, .answered m ∈ ts ∧ m.frequency ≠ .never ∧ a ∈ m.raises.members
  sorted : s.raises.Sorted

theorem joinAll_returns (ts : List Trial) (t : Trial) :
    Ty.joinAll ((ts ++ [t]).map Trial.returns) = (Ty.joinAll (ts.map Trial.returns)).join t.returns := by
  simp [Ty.joinAll]

theorem Samples.Of.add {s : Samples} (of : s.Of ts) (t : Trial) : (s.add t).Of (ts ++ [t]) := by
  cases t with
  | answered m =>
    constructor
    · simpa [Samples.add, record] using of.wrongCount
    · simp [Samples.add, record]
    · simp [Samples.add, record, of.raised, or_and_right, exists_or]
    · simp [Samples.add, record, of.succeeded, or_and_right, exists_or]
    · rw [joinAll_returns, ← of.returns]
      simp only [Samples.add, record, Trial.returns, bne_iff_ne, ite_not]
      split <;> rfl
    · intro a
      have before := of.raises a
      by_cases calm : m.frequency = .never
      · simp [Samples.add, record, calm, before]
      · simp [Samples.add, record, calm, before]
    · simp only [Samples.add, record]
      split
      · exact of.sorted.join _
      · exact of.sorted
  | missing | hidden | rejected =>
    constructor
    · simp [Samples.add, of.wrongCount]
    · simp [Samples.add, of.rightCount]
    · simp [Samples.add, of.raised]
    · simp [Samples.add, of.succeeded]
    · rw [joinAll_returns, ← of.returns]
      rfl
    · simp [Samples.add, of.raises]
    · exact of.sorted

theorem Samples.of_foldl_add (ts : List Trial) : (ts.foldl Samples.add .none).Of ts := by
  suffices run : ∀ s seen, Samples.Of s seen → (ts.foldl Samples.add s).Of (seen ++ ts) by
    apply run .none []
    constructor <;> simp [Samples.none, Ty.sorted_empty, Ty.joinAll]
  induction ts with
  | nil => intro s seen of; simpa using of
  | cons t ts ih =>
    intro s seen of
    have step := ih _ _ (of.add t)
    rwa [List.append_assoc] at step

/-! The joint frequency. -/

namespace Frequency

theorem join_eq_never_iff {a b : Frequency} : a.join b = .never ↔ a = .never ∧ b = .never := by
  cases a <;> cases b <;> decide

theorem join_eq_always_iff {a b : Frequency} : a.join b = .always ↔ a = .always ∨ b = .always := by
  cases a <;> cases b <;> decide

theorem ofSamples_eq_never_iff : ofSamples seen unseen = .never ↔ seen = false ∧ unseen = true := by
  cases seen <;> cases unseen <;> decide

theorem ofSamples_eq_always_iff : ofSamples seen unseen = .always ↔ unseen = false := by
  cases seen <;> cases unseen <;> decide

theorem ofSome_eq_never_iff :
    (if seen || unseen then ofSamples seen unseen else .never) = .never ↔ seen = false := by
  cases seen <;> cases unseen <;> decide

theorem ofSome_eq_always_iff :
    (if seen || unseen then ofSamples seen unseen else .never) = .always ↔
      seen = true ∧ unseen = false := by
  cases seen <;> cases unseen <;> decide

end Frequency

namespace Trial

theorem forall_fails_eq_false_iff :
    (∀ t ∈ ts, t.fails = false) ↔
      .missing ∉ ts ∧ .hidden ∉ ts ∧ .rejected ∉ ts ∧
        ¬∃ m, .answered m ∈ ts ∧ m.frequency ≠ .never := by
  constructor
  · intro calm
    refine ⟨?_, ?_, ?_, ?_⟩
    · intro found
      cases calm _ found
    · intro found
      cases calm _ found
    · intro found
      cases calm _ found
    · rintro ⟨m, found, raises⟩
      exact raises (by simpa [fails] using calm _ found)
  · rintro ⟨found, open_, accepted, silent⟩ t t_in
    cases t with
    | missing => exact absurd t_in found
    | hidden => exact absurd t_in open_
    | rejected => exact absurd t_in accepted
    | answered m =>
      by_contra raises
      exact silent ⟨m, t_in, by simpa [fails] using raises⟩

theorem forall_succeeds_eq_false_iff :
    (∀ t ∈ ts, t.succeeds = false) ↔ ¬∃ m, .answered m ∈ ts ∧ m.frequency ≠ .always := by
  constructor
  · rintro fruitless ⟨m, found, returns⟩
    exact returns (by simpa [succeeds] using fruitless _ found)
  · intro fruitless t t_in
    cases t with
    | missing | hidden | rejected => rfl
    | answered m =>
      by_contra returns
      exact fruitless ⟨m, t_in, by simpa [succeeds] using returns⟩

theorem mem_joinAll_raises {a : Member} :
    a ∈ (Ty.joinAll (ts.map raises)).members ↔
      ((.missing ∈ ts ∨ .hidden ∈ ts) ∧ a = .cls CoreClass.noMethodError .exact) ∨
      (.rejected ∈ ts ∧ a = .cls CoreClass.argumentError .exact) ∨
      ∃ m, .answered m ∈ ts ∧ m.frequency ≠ .never ∧ a ∈ m.raises.members := by
  simp only [Ty.mem_joinAll, List.mem_map, exists_exists_and_eq_and]
  constructor
  · rintro ⟨t, t_in, raised⟩
    cases t with
    | missing => exact .inl ⟨.inl t_in, Ty.mem_exact.mp raised⟩
    | hidden => exact .inl ⟨.inr t_in, Ty.mem_exact.mp raised⟩
    | rejected => exact .inr (.inl ⟨t_in, Ty.mem_exact.mp raised⟩)
    | answered m =>
      rw [raises] at raised
      split at raised
      · cases raised
      · rename_i often
        exact .inr (.inr ⟨m, t_in, often, raised⟩)
  · rintro (⟨failed, rfl⟩ | ⟨failed, rfl⟩ | ⟨m, found, often, raised⟩)
    · rcases failed with found | found
      · exact ⟨_, found, Ty.mem_exact.mpr rfl⟩
      · exact ⟨_, found, Ty.mem_exact.mpr rfl⟩
    · exact ⟨_, failed, Ty.mem_exact.mpr rfl⟩
    · exact ⟨_, found, by rwa [raises, if_neg often]⟩

end Trial

/-- No open method at all: the call fails on lookup or on visibility. -/
theorem DispatchResult.exact_noMethod (some_trial : ts ≠ [])
    (closed : ∀ t ∈ ts, t.reaches = false) (decision : Decision) :
    (DispatchResult.noMethod decision).Exact ts := by
  have kind : ∀ t ∈ ts, t = .missing ∨ t = .hidden := by
    intro t t_in
    have shut := closed t t_in
    cases t with
    | missing => exact .inl rfl
    | hidden => exact .inr rfl
    | rejected | answered _ => cases shut
  obtain ⟨t, t_in⟩ := List.exists_mem_of_ne_nil ts some_trial
  constructor
  · constructor
    · intro never
      cases never
    · intro calm
      have := calm t t_in
      rcases kind t t_in with rfl | rfl <;> cases this
  · simp only [noMethod, true_iff]
    intro u u_in
    rcases kind u u_in with rfl | rfl <;> rfl
  · apply Ty.Sorted.ext Ty.sorted_empty (Ty.sorted_joinAll _)
    intro a
    simp only [Ty.mem_joinAll, List.mem_map, exists_exists_and_eq_and]
    constructor
    · intro none
      cases none
    · rintro ⟨u, u_in, returned⟩
      rcases kind u u_in with rfl | rfl <;> cases returned
  · apply Ty.Sorted.ext (Ty.sorted_ofMember _) (Ty.sorted_joinAll _)
    intro a
    rw [← Ty.exact, Ty.mem_exact, Trial.mem_joinAll_raises]
    constructor
    · intro same
      rcases kind t t_in with rfl | rfl
      · exact .inl ⟨.inl t_in, same⟩
      · exact .inl ⟨.inr t_in, same⟩
    · rintro (⟨-, same⟩ | ⟨found, -⟩ | ⟨m, found, -⟩)
      · exact same
      · cases closed _ found
      · cases closed _ found

theorem Samples.lookupFrequency_eq_never_iff : lookupFrequency res = .never ↔ res.missing = [] := by
  unfold lookupFrequency
  cases res.missing <;> simp

theorem Samples.lookupFrequency_ne_always (res : Resolution) : lookupFrequency res ≠ .always := by
  unfold lookupFrequency
  split <;> simp

theorem Samples.privacyFrequency_eq_never_iff :
    privacyFrequency res = .never ↔ res.concealed = [] := by
  unfold privacyFrequency
  cases res.concealed <;> simp [Frequency.ofSamples_eq_never_iff]

theorem Samples.privacyFrequency_eq_always_iff :
    privacyFrequency res = .always ↔ res.concealed ≠ [] ∧ res.accessible = [] := by
  unfold privacyFrequency
  cases res.concealed <;> simp [Frequency.ofSamples_eq_always_iff]

/-- Some method is open, so that either counts were wrong or methods were asked, and every method
that was asked raised or returned. -/
theorem Samples.finish_exact {s : Samples} (of : s.Of ts)
    (agree : Resolver.Agree res ts) (reached : res.accessible ≠ []) (refinePrivacy : Bool) :
    (s.finish res refinePrivacy).Exact ts := by
  have counted : s.wrongCount = true ∨ s.rightCount = true := by
    by_contra uncounted
    apply reached
    rw [agree.accessible]
    intro t t_in
    cases t with
    | missing | hidden => rfl
    | rejected => exact absurd (.inl (of.wrongCount.mpr t_in)) uncounted
    | answered m => exact absurd (.inr (of.rightCount.mpr ⟨m, t_in⟩)) uncounted
  have asked : s.rightCount = true ↔ s.raised = true ∨ s.succeeded = true := by
    rw [of.rightCount, of.raised, of.succeeded, ← exists_or]
    apply exists_congr
    intro m
    rw [← and_or_left]
    refine ⟨fun found => ⟨found, ?_⟩, fun found => found.1⟩
    cases m.frequency <;> simp
  have not_private : privacyFrequency res ≠ .always :=
    fun always => reached (privacyFrequency_eq_always_iff.mp always).2
  have not_lookup := lookupFrequency_ne_always res
  unfold finish
  rw [if_neg not_private]
  constructor
  · rw [Trial.forall_fails_eq_false_iff, ← agree.missing, ← agree.concealed, ← of.wrongCount,
      ← of.raised]
    simp only [Frequency.join_eq_never_iff, lookupFrequency_eq_never_iff,
      privacyFrequency_eq_never_iff, Frequency.ofSamples_eq_never_iff,
      Frequency.ofSome_eq_never_iff, Bool.not_eq_true]
    constructor
    · rintro ⟨⟨⟨found, shown⟩, fits, -⟩, calm⟩
      exact ⟨found, shown, fits, calm⟩
    · rintro ⟨found, shown, fits, calm⟩
      have right := counted.resolve_left (by simp [fits])
      exact ⟨⟨⟨found, shown⟩, fits, right⟩, calm⟩
  · rw [Trial.forall_succeeds_eq_false_iff, ← of.succeeded]
    simp only [Frequency.join_eq_always_iff, not_private, not_lookup,
      Frequency.ofSamples_eq_always_iff, Frequency.ofSome_eq_always_iff, false_or,
      Bool.not_eq_true]
    constructor
    · rintro (unfit | ⟨-, fruitless⟩)
      · by_contra succeeded
        have right := asked.mpr (.inr (eq_true_of_ne_false succeeded))
        rw [unfit] at right
        cases right
      · exact fruitless
    · intro fruitless
      cases right : s.rightCount with
      | false => exact .inl rfl
      | true => exact .inr ⟨(asked.mp right).resolve_right (by simp [fruitless]), fruitless⟩
  · exact of.returns
  · have unfound : lookupFrequency res ≠ .never ∨ privacyFrequency res ≠ .never ↔
        .missing ∈ ts ∨ .hidden ∈ ts := by
      rw [Ne, Ne, lookupFrequency_eq_never_iff, privacyFrequency_eq_never_iff, agree.missing,
        agree.concealed, not_not, not_not]
    have unfit : Frequency.ofSamples s.wrongCount s.rightCount ≠ .never ↔ .rejected ∈ ts := by
      rw [Ne, Frequency.ofSamples_eq_never_iff, ← of.wrongCount]
      cases wrong : s.wrongCount with
      | false => simp [counted.resolve_left (by simp [wrong])]
      | true => simp
    apply Ty.Sorted.ext _ (Ty.sorted_joinAll _)
    · intro a
      rw [Trial.mem_joinAll_raises, ← of.raises, ← unfound, ← unfit]
      dsimp only
      split
      · rename_i only_counts
        obtain ⟨always, found, shown⟩ := only_counts
        have silent : a ∉ s.raises.members := by
          rw [of.raises]
          rintro ⟨m, answered, -⟩
          have right := of.rightCount.mpr ⟨m, answered⟩
          rw [Frequency.ofSamples_eq_always_iff.mp always] at right
          cases right
        simp [always, found, shown, silent]
      · rw [Ty.mem_join_if, Ty.mem_join_if, Ty.mem_exact, Ty.mem_exact, or_assoc, or_comm, or_assoc]
    · dsimp only
      split
      · exact Ty.sorted_ofMember _
      · exact (of.sorted.join_if _).join_if _

namespace Resolver

variable {σ : Type} (r : Resolver) (source : Summaries σ) (name : String) (ignoreVisibility : Bool)
  (args : Option (List Ty)) (block : Ty)

theorem agree_nil : Agree default [] where
  missing := by simp [show (default : Resolution).missing = [] from rfl]
  concealed := by simp [show (default : Resolution).concealed = [] from rfl]
  accessible := by simp [show (default : Resolution).accessible = [] from rfl]

/-- For a receiver of which something is known, the trials and the joint result go through the same
states of the source, and the result is exact. -/
theorem exists_aggregate_exact {receiver : Ty} (known : receiver.isTop = false)
    (inhabited : r.table.possibleClasses receiver ≠ []) (a : σ) :
    ∃ ts d b, (r.trials source name ignoreVisibility args block receiver).run a = (ts, b) ∧
      (r.aggregate source (r.resolve receiver name ignoreVisibility) args block).run a = (d, b) ∧
      ts ≠ [] ∧ d.Exact ts := by
  obtain ⟨k, k_in⟩ := List.exists_mem_of_ne_nil _ inhabited
  have some_class : receiverClasses r.table receiver ≠ [] := by
    intro none
    rw [← mem_keys_receiverClasses, none] at k_in
    cases k_in
  obtain ⟨ts, b, run, some_trial, agree⟩ :=
    agree_nil.attempts r source name ignoreVisibility args block (receiverClasses r.table receiver) a
  obtain ⟨targets, filed, sampled⟩ := r.exists_accessible_fileAll source name ignoreVisibility args
    block default (receiverClasses r.table receiver)
  have certain := r.unknown_fileAll name ignoreVisibility default (receiverClasses r.table receiver)
  rw [← resolve_eq r name ignoreVisibility known] at agree filed certain
  rw [List.nil_append] at agree
  change _ = targets at filed
  change _ = false at certain
  have samples : ((r.resolve receiver name ignoreVisibility).accessible.foldlM
      (r.sample source args block) .none).run a = (ts.foldl Samples.add .none, b) := by
    rw [filed, sampled, run_bind_of_run run]
    rfl
  unfold aggregate
  rw [certain, if_neg Bool.false_ne_true]
  by_cases reached : (r.resolve receiver name ignoreVisibility).accessible = []
  · rw [reached] at samples
    obtain rfl : a = b := congrArg Prod.snd samples
    have closed := DispatchResult.exact_noMethod (some_trial some_class) (agree.accessible.mp reached)
    split
    · exact ⟨ts, _, a, run, rfl, some_trial some_class, closed _⟩
    · rename_i resolved
      have shut : Samples.privacyFrequency (r.resolve receiver name ignoreVisibility) = .always := by
        rw [Samples.privacyFrequency_eq_always_iff]
        refine ⟨?_, reached⟩
        intro shown
        simp [Resolution.isUnresolved, certain, reached, shown] at resolved
      rw [reached]
      refine ⟨ts, _, a, run, rfl, some_trial some_class, ?_⟩
      rw [Samples.finish, if_pos shut]
      exact closed _
  · have resolved : (r.resolve receiver name ignoreVisibility).isUnresolved = false := by
      simp [Resolution.isUnresolved, reached]
    rw [resolved, if_neg Bool.false_ne_true, run_bind_of_run samples]
    exact ⟨ts, _, b, run, rfl, some_trial some_class,
      Samples.finish_exact (Samples.of_foldl_add ts) agree reached _⟩

/-- Aggregation is exact. The classes tried are the possible classes of the receiver, and over their
trials the result fails never, always or sometimes as they do; it returns what those return that can
succeed, and raises what those raise that can fail. -/
theorem aggregate_exact {receiver : Ty} (known : receiver.isTop = false)
    (inhabited : r.table.possibleClasses receiver ≠ []) (a : σ) :
    (∀ k, k ∈ (receiverClasses r.table receiver).map Prod.fst ↔
        k ∈ r.table.possibleClasses receiver) ∧
      ∃ ts d b, (r.trials source name ignoreVisibility args block receiver).run a = (ts, b) ∧
        (r.aggregate source (r.resolve receiver name ignoreVisibility) args block).run a = (d, b) ∧
        d.Exact ts := by
  constructor
  · intro k
    exact mem_keys_receiverClasses
  · obtain ⟨ts, d, b, tried, aggregated, -, exact⟩ :=
      r.exists_aggregate_exact source name ignoreVisibility args block known inhabited a
    exact ⟨ts, d, b, tried, aggregated, exact⟩

/-- An integer or `nil`: only the integer knows how to add. -/
def integerOrNil : Ty := (Ty.exact CoreClass.nilClass).join (.exact CoreClass.integer)

theorem aggregate_exact_integerOrNil :
    integerOrNil.isTop = false ∧ ClassTable.core.possibleClasses integerOrNil ≠ [] ∧
      ∃ ts d b,
        ((ofTable .core).trials (.declared .core) "+" false (some [.exact CoreClass.integer]) .nil
          integerOrNil).run () = (ts, b) ∧
        ((ofTable .core).aggregate (.declared .core)
          ((ofTable .core).resolve integerOrNil "+" false) (some [.exact CoreClass.integer])
          .nil).run () = (d, b) ∧ d.Exact ts ∧ d.frequency = .maybe := by
  have known : integerOrNil.isTop = false := by decide
  have inhabited : (ofTable .core).table.possibleClasses integerOrNil ≠ [] := by decide +kernel
  have sometimes : (((ofTable .core).aggregate (.declared .core)
      ((ofTable .core).resolve integerOrNil "+" false) (some [.exact CoreClass.integer])
      .nil).run ()).1.frequency = .maybe := by decide +kernel
  obtain ⟨ts, d, b, tried, joint, exact_for⟩ :=
    (aggregate_exact (ofTable .core) (.declared .core) "+" false (some [.exact CoreClass.integer])
      .nil known inhabited ()).2
  rw [joint] at sometimes
  exact ⟨known, inhabited, ts, d, b, tried, joint, exact_for, sometimes⟩

end Resolver

end ScriptFlow
