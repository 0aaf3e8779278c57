import ScriptFlow.Analyzer
import ScriptFlow.Proofs.Propagation.Queries
import ScriptFlow.Tree.Build

/-! The discipline of the cache of summaries. Whatever a query sets going, it leaves the queries in
progress and the entries of others as they were. -/

namespace ScriptFlow

namespace Analyzer

namespace Cache

theorem lookup_filter_ne (k j : SummaryKey) (es : List (SummaryKey × CacheEntry)) :
    (es.filter (·.1 ≠ k)).lookup j = if j = k then none else es.lookup j := by
  induction es with
  | nil => simp
  | cons e es ih =>
    by_cases hit : e.1 = k
    · rw [List.filter_cons_of_neg (by simp [hit]), ih, List.lookup_cons, hit]
      by_cases here : j = k
      · simp [here]
      · simp [here, beq_eq_false_iff_ne.mpr here]
    · rw [List.filter_cons_of_pos (by simp [hit]), List.lookup_cons, List.lookup_cons, ih]
      by_cases here : j = e.1
      · simp [here, hit]
      · simp [beq_eq_false_iff_ne.mpr here]

theorem get?_put (c : Cache) (k j : SummaryKey) (e : CacheEntry) :
    (c.put k e).get? j = if j = k then some e else c.get? j := by
  rw [get?, put, List.lookup_cons, lookup_filter_ne]
  by_cases here : j = k
  · simp [here]
  · simp [here, beq_eq_false_iff_ne.mpr here, get?]

theorem get?_remove (c : Cache) (k j : SummaryKey) :
    (c.remove k).get? j = if j = k then none else c.get? j := lookup_filter_ne k j c.entries

/-- What a query that has been answered leaves as it was. -/
structure Keeps (c c' : Cache) : Prop where
  nesting : c'.nesting = c.nesting
  inProgress : ∀ k, c'.get? k = some .inProgress ↔ c.get? k = some .inProgress
  kept : ∀ k e, c.get? k = some e → c'.get? k = some e

theorem chains_keeps : Chains Keeps where
  refl _ := ⟨rfl, fun _ => .rfl, fun _ _ => id⟩
  trans first second := ⟨second.nesting.trans first.nesting,
    fun k => (second.inProgress k).trans (first.inProgress k),
    fun k e found => second.kept k e (first.kept k e found)⟩

/-- A query in progress is closed, and no other is touched. -/
structure Closes (k : SummaryKey) (c c' : Cache) : Prop where
  nesting : c'.nesting = c.nesting
  inProgress : ∀ j, j ≠ k → (c'.get? j = some .inProgress ↔ c.get? j = some .inProgress)
  kept : ∀ j, j ≠ k → ∀ e, c.get? j = some e → c'.get? j = some e
  closed : c'.get? k ≠ some .inProgress

/-- A query that was not there is opened and then closed. -/
theorem Closes.keeps {k : SummaryKey} {c c' : Cache} (absent : c.get? k = none)
    (closes : Closes k (c.put k .inProgress) c') : Keeps c c' where
  nesting := closes.nesting
  inProgress j := by
    by_cases here : j = k
    · rw [here, absent]
      constructor
      · exact fun pending => absurd pending closes.closed
      · intro found
        cases found
    · rw [closes.inProgress j here, get?_put, if_neg here]
  kept j e found := by
    have other : j ≠ k := by
      intro here
      rw [here, absent] at found
      cases found
    apply closes.kept j other
    rw [get?_put, if_neg other, found]

end Cache

open Cache

variable (a : Analyzer)

/-! Analysing a body touches the cache by nested queries only. -/

theorem keeps_buildGraph (l : Lowering) (body : Tree) (formals : List Formal) :
    Through Keeps (buildGraph l body formals) := by
  intro c
  unfold buildGraph
  split
  · exact ⟨rfl, fun _ => .rfl, fun _ _ => id⟩
  · split
    · exact ⟨rfl, fun _ => .rfl, fun _ _ => id⟩
    · exact ⟨rfl, fun _ => .rfl, fun _ _ => id⟩

theorem keeps_baseGraph (m : MethodId) : Through Keeps (a.baseGraph m) := by
  unfold baseGraph
  refine .bind chains_keeps (fun c => chains_keeps.refl c) fun c => ?_
  split
  · exact .pure chains_keeps _
  · extract_lets r
    split
    · refine .bind chains_keeps (keeps_buildGraph _ _ _) fun g => ?_
      refine .bind chains_keeps (fun c => ?_) fun _ => .pure chains_keeps _
      exact ⟨rfl, fun _ => .rfl, fun _ _ => id⟩
    · exact .throw chains_keeps _

/-- Every answer of the source keeps the discipline. -/
def Disciplined (source : Summaries Cache) : Prop :=
  ∀ c c', Propagation.Query source c c' → Keeps c c'

theorem Disciplined.asked {source : Summaries Cache} (disciplined : Disciplined source)
    {c c' : Cache} (asked : Propagation.Asked source c c') : Keeps c c' := by
  induction asked with
  | refl => exact chains_keeps.refl c
  | tail _ query ih => exact chains_keeps.trans ih (disciplined _ _ query)

theorem keeps_propagate {source : Summaries Cache} (disciplined : Disciplined source)
    (s : Specialization) (g : FlowGraph) : Through Keeps (a.propagate source s g) := by
  intro c
  unfold propagate
  extract_lets p
  have asks : Through (Propagation.AsksOf source)
      (do let _ ← p.analyze; p.inspect : EStateM Error (FlowGraph × Cache) Unit) :=
    .bind (Propagation.chains_asksOf source) p.asks_analyze fun _ => p.asks_inspect
  have asked := asks (g, c)
  split
  · rename_i ran
    rw [ran] at asked
    exact disciplined.asked asked
  · rename_i ran
    rw [ran] at asked
    exact disciplined.asked asked

theorem keeps_analyzeKey {source : Summaries Cache} (disciplined : Disciplined source)
    (k : SummaryKey) : Through Keeps (a.analyzeKey source k) :=
  .bind chains_keeps (a.keeps_baseGraph k.method) fun _ => a.keeps_propagate disciplined _ _

/-! Queries. -/

theorem closes_cutOff (k : SummaryKey) (c : Cache) : Closes k c ((cutOff k).run c).2 where
  nesting := rfl
  inProgress j other := by
    change (c.remove k).get? j = _ ↔ _
    rw [get?_remove, if_neg other]
  kept j other e found := by
    change (c.remove k).get? j = _
    rw [get?_remove, if_neg other, found]
  closed := by
    change (c.remove k).get? k ≠ _
    rw [get?_remove, if_pos rfl]
    intro found
    cases found

theorem Cache.Keeps.closes {k : SummaryKey} {c c' : Cache} {e : CacheEntry}
    (keeps : Keeps { c with nesting := c.nesting + 1 } c') (ended : e ≠ .inProgress) :
    Closes k c ({ c' with nesting := c.nesting }.put k e) where
  nesting := rfl
  inProgress j other := by
    rw [get?_put, if_neg other]
    exact keeps.inProgress j
  kept j other e' found := by
    rw [get?_put, if_neg other]
    exact keeps.kept j e' found
  closed := by
    rw [get?_put, if_pos rfl]
    exact fun same => ended (Option.some.inj same)

/-- How a query ends that could not be answered from the cache. -/
def Answered (k : SummaryKey) (out : MethodSummary × Cache) : Prop :=
  out.2.get? k = some (.done out.1) ∨ ∃ e, out.2.get? k = some (.failed e) ∧ out.1 = .unknown

theorem answer_spec {source : Summaries Cache} (disciplined : Disciplined source)
    (k : SummaryKey) (c : Cache) :
    Closes k c ((a.answer source k).run c).2 ∧ Answered k ((a.answer source k).run c) := by
  have keeps := a.keeps_analyzeKey disciplined k { c with nesting := c.nesting + 1 }
  have unfolded : (a.answer source k).run c = a.answer source k c := rfl
  rw [unfolded]
  unfold answer
  split
  · rename_i ran
    rw [ran] at keeps
    exact ⟨keeps.closes (by intro same; cases same), .inl (by rw [get?_put, if_pos rfl])⟩
  · rename_i e _ ran
    rw [ran] at keeps
    exact ⟨keeps.closes (by intro same; cases same),
      .inr ⟨e, by rw [get?_put, if_pos rfl], rfl⟩⟩

/-- A query is passed on only if its answer is neither declared nor in the cache. -/
theorem cached_run (k : SummaryKey) (fresh : StateM Cache MethodSummary) (c : Cache) :
    (a.isAnalyzed k.method = true ∧ c.get? k = none ∧
      (a.cached k fresh).run c = fresh.run (c.put k .inProgress)) ∨
    (¬(a.isAnalyzed k.method = true ∧ c.get? k = none) ∧ ((a.cached k fresh).run c).2 = c) := by
  unfold cached
  cases analyzed : a.isAnalyzed k.method with
  | false => exact .inr ⟨fun both => Bool.noConfusion both.1, rfl⟩
  | true =>
    rw [if_neg (by decide), run_get_bind]
    cases found : c.get? k with
    | none => exact .inl ⟨rfl, rfl, rfl⟩
    | some e =>
      have found' : ¬(true = true ∧ some e = none) := by
        intro both
        cases both.2
      cases e with
      | done s => exact .inr ⟨found', rfl⟩
      | inProgress => exact .inr ⟨found', rfl⟩
      | failed e => exact .inr ⟨found', rfl⟩

theorem keeps_cached {k : SummaryKey} {fresh : StateM Cache MethodSummary}
    (closes : Along (Closes k) fresh) : Along Keeps (a.cached k fresh) := by
  intro c
  obtain ⟨-, absent, ran⟩ | ⟨-, same⟩ := a.cached_run k fresh c
  · rw [ran]
    exact (closes (c.put k .inProgress)).keeps absent
  · rw [same]
    exact chains_keeps.refl c

theorem disciplined_sourceOf {summary : SummaryKey → StateM Cache MethodSummary}
    (keeps : ∀ k, Along Keeps (summary k)) : Disciplined (a.sourceOf summary) := by
  intro c c' query
  cases query with
  | summarize m receiver args block => exact keeps _ c
  | blockUse m =>
    have along : Along Keeps ((a.sourceOf summary).blockUse m) := by
      refine .ite (fun _ => .pure chains_keeps _) fun _ => ?_
      exact .bind chains_keeps (keeps _) fun _ => .pure chains_keeps _
    exact along c

/-- What happens to a query that is not in the cache. -/
def fresh (levels : Nat) (k : SummaryKey) : StateM Cache MethodSummary := do
  if maxNesting ≤ (← get).nesting then cutOff k else a.answer (a.sourceOf (a.summaryWithin levels)) k

theorem summaryWithin_succ (levels : Nat) (k : SummaryKey) :
    a.summaryWithin (levels + 1) k = a.cached k (a.fresh levels k) := rfl

theorem fresh_run (levels : Nat) (k : SummaryKey) (c : Cache) :
    (a.fresh levels k).run c =
      if maxNesting ≤ c.nesting then (.unknown, c.remove k)
      else (a.answer (a.sourceOf (a.summaryWithin levels)) k).run c := by
  unfold fresh
  rw [run_get_bind]
  split <;> rfl

theorem keeps_summaryWithin (levels : Nat) (k : SummaryKey) :
    Along Keeps (a.summaryWithin levels k) := by
  induction levels generalizing k with
  | zero => exact a.keeps_cached (closes_cutOff k)
  | succ levels ih =>
    rw [summaryWithin_succ]
    apply keeps_cached
    intro c
    rw [fresh_run]
    split
    · exact closes_cutOff k c
    · exact (a.answer_spec (a.disciplined_sourceOf ih) k c).1

/-- What is left behind by a query for `k` that began with the cache `c`. -/
structure Settles (k : SummaryKey) (c : Cache) (out : MethodSummary × Cache) : Prop
    extends Keeps c out.2 where
  /-- A query that could not be answered from the cache was answered, failed or was cut off. -/
  answered : a.isAnalyzed k.method = true → c.get? k = none →
    Answered k out ∨ out.2.get? k = none ∧ out.1 = .unknown ∧ maxNesting ≤ c.nesting

theorem settles_summaryWithin {levels : Nat} {k : SummaryKey} {c : Cache}
    (enough : maxNesting ≤ levels + c.nesting) :
    a.Settles k c ((a.summaryWithin levels k).run c) where
  toKeeps := a.keeps_summaryWithin levels k c
  answered analyzed absent := by
    cases levels with
    | zero =>
      obtain ⟨-, -, ran⟩ | ⟨other, -⟩ := a.cached_run k (cutOff k) c
      · refine .inr ?_
        change ((a.cached k (cutOff k)).run c).2.get? k = none ∧ _
        rw [summaryWithin, ran]
        refine ⟨?_, rfl, by omega⟩
        change ((c.put k .inProgress).remove k).get? k = none
        rw [get?_remove, if_pos rfl]
      · exact absurd ⟨analyzed, absent⟩ other
    | succ levels =>
      obtain ⟨-, -, ran⟩ | ⟨other, -⟩ := a.cached_run k (a.fresh levels k) c
      · rw [summaryWithin_succ, ran, fresh_run]
        split
        · rename_i limit
          exact .inr ⟨by rw [get?_remove, if_pos rfl], rfl, limit⟩
        · have disciplined := a.disciplined_sourceOf (a.keeps_summaryWithin levels)
          exact .inl (a.answer_spec disciplined k _).2
      · exact absurd ⟨analyzed, absent⟩ other

/-- A query, and every query nested in it, leaves the cache in order, however it ends. -/
theorem summary_settles :
    (∀ k c, a.Settles k c ((a.summary k).run c)) ∧
    ∀ levels k (c : Cache), maxNesting ≤ levels + c.nesting →
      a.Settles k c ((a.summaryWithin levels k).run c) :=
  ⟨fun _ _ => a.settles_summaryWithin (Nat.le_add_right _ _),
    fun _ _ _ enough => a.settles_summaryWithin enough⟩

/-- One method, which calls itself. -/
def recursiveMethod : Analyzer where
  table := (ClassTable.empty.defineMethod 0 (.userMethod "f" ⟨[], .selfCall "f" [], .topLevel⟩)).2
  config := .standard

/-- The last query that nesting leaves room for. -/
theorem summary_settles_at_limit :
    recursiveMethod.isAnalyzed 0 = true ∧
    recursiveMethod.Settles ⟨0, .top, some [], .nil⟩ ⟨[], [], 0, 63⟩
      ((recursiveMethod.summaryWithin 1 ⟨0, .top, some [], .nil⟩).run ⟨[], [], 0, 63⟩) :=
  ⟨by decide, recursiveMethod.summary_settles.2 1 ⟨0, .top, some [], .nil⟩ ⟨[], [], 0, 63⟩
    (by decide)⟩

end Analyzer

end ScriptFlow
