import ScriptFlow.Proofs.Digraph.Semidominator

/-! The links between settled nodes. Every settled node is linked to one above it and knows the node
with the earliest semidominator on the way there, and following links keeps this while it shortens
them. -/

namespace ScriptFlow

namespace Semidominators

variable {v a : Nat}
variable (s : Semidominators)

theorem link?_shorten (t : SpanningTree) (link : s.link? v = some a) (x : Nat) :
    (s.shorten t v).link? x = if x = v then s.link? a else s.link? x := by
  have inside : v < s.link.size := by
    by_contra outside
    simp [link?, Array.getD_eq_getD_getElem?, Array.getElem?_eq_none (Nat.le_of_not_lt outside)]
      at link
  simp only [shorten, link]
  simp only [link?, Array.getD_eq_getD_getElem?, Array.getElem?_setIfInBounds]
  grind

theorem bestOf_shorten (t : SpanningTree) (link : s.link? v = some a)
    (inside : v < s.best.size) (x : Nat) :
    (s.shorten t v).bestOf x =
      if x = v ∧ t.placeOf (s.semiOf (s.bestOf a)) < t.placeOf (s.semiOf (s.bestOf v)) then s.bestOf a
      else s.bestOf x := by
  simp only [shorten, link]
  by_cases better : t.placeOf (s.semiOf (s.bestOf a)) < t.placeOf (s.semiOf (s.bestOf v))
  · simp only [better, if_true, and_true]
    simp only [bestOf, Array.getD_eq_getD_getElem?, Array.getElem?_setIfInBounds]
    grind
  · simp only [better, if_false, and_false]
    rfl

theorem link?_enlist {w : Nat} (p : Nat) (inside : w < s.link.size) (x : Nat) :
    (s.enlist w p).link? x = if x = w then some p else s.link? x := by
  simp only [enlist, link?, Array.getD_eq_getD_getElem?, Array.getElem?_setIfInBounds]
  grind

/-- Only links and what belongs to them differ. -/
structure Shortened (s s' : Semidominators) : Prop where
  semi : s'.semi = s.semi
  waiting : s'.waiting = s.waiting
  dominator : s'.dominator = s.dominator

namespace Shortened

variable {s} {s' s'' : Semidominators}

theorem refl : Shortened s s := ⟨rfl, rfl, rfl⟩

theorem trans (first : Shortened s s') (second : Shortened s' s'') : Shortened s s'' :=
  ⟨second.semi.trans first.semi, second.waiting.trans first.waiting,
    second.dominator.trans first.dominator⟩

theorem semiOf_eq (same : Shortened s s') (v : Nat) : s'.semiOf v = s.semiOf v := by
  rw [semiOf, semiOf, same.semi]

end Shortened

theorem shortened_shorten (t : SpanningTree) (v : Nat) : Shortened s (s.shorten t v) := by
  unfold shorten
  split
  · exact ⟨rfl, rfl, rfl⟩
  · exact .refl

end Semidominators

namespace Digraph

open Semidominators

variable {g : Digraph} {root : Nat} {t : SpanningTree} {k : Nat} {s : Semidominators}

/-- The link of a node that is settled, as all nodes with places beyond `k` are. -/
structure Linked (t : SpanningTree) (k : Nat) (s : Semidominators) (v a : Nat) : Prop where
  link : s.link? v = some a
  is_over : t.Over a v
  earlier : t.placeOf a < t.placeOf v
  /-- The link leads past settled nodes only. -/
  settled : ∀ u, t.Over u v → t.placeOf a < t.placeOf u → k < t.placeOf u
  best_over : t.Over (s.bestOf v) v
  best_below : t.placeOf a < t.placeOf (s.bestOf v)
  least : ∀ u, t.Over u v → t.placeOf a < t.placeOf u →
    t.placeOf (s.semiOf (s.bestOf v)) ≤ t.placeOf (s.semiOf u)

structure Forest (g : Digraph) (t : SpanningTree) (k : Nat) (s : Semidominators) : Prop where
  sizes : s.semi.size = g.size ∧ s.link.size = g.size ∧ s.best.size = g.size
  linked : ∀ v, k < t.placeOf v → ∃ a, Linked t k s v a
  unlinked : ∀ v, t.placeOf v ≤ k → s.link? v = none ∧ s.bestOf v = v

namespace Forest

variable (forest : g.Forest t k s)

include forest

theorem settled_of_link (link : s.link? v = some a) : k < t.placeOf v := by
  by_contra early
  rw [(forest.unlinked v (Nat.le_of_not_lt early)).1] at link
  cases link

theorem linked_of_link (link : s.link? v = some a) : Linked t k s v a := by
  obtain ⟨a', linked⟩ := forest.linked v (forest.settled_of_link link)
  obtain rfl := Option.some.inj (link.symm.trans linked.link)
  exact linked

variable (spans : g.Spans root t)

include spans

/-- A node may be linked to where its link leads. -/
theorem linked_shorten {b : Nat} (link : s.link? v = some a) (next : s.link? a = some b) :
    Linked t k (s.shorten t v) v b := by
  have lower := forest.linked_of_link link
  have upper := forest.linked_of_link next
  have inside : v < s.best.size := by
    rw [forest.sizes.2.2]
    exact spans.inside ((spans.met_iff v).mpr (Nat.lt_of_le_of_lt (Nat.zero_le _) lower.earlier))
  -- a node between `v` and `b` is below `a` or between `a` and `b`
  have split {u : Nat} (is_over : t.Over u v) : t.placeOf a < t.placeOf u ∨ t.Over u a := by
    rcases Nat.lt_or_ge (t.placeOf a) (t.placeOf u) with below | above
    · exact .inl below
    · exact .inr (spans.over_of_le is_over lower.is_over above)
  have semi_same := (s.shortened_shorten t v).semiOf_eq
  refine ⟨?_, upper.is_over.trans lower.is_over, Nat.lt_trans upper.earlier lower.earlier,
    ?_, ?_, ?_, ?_⟩
  · rw [s.link?_shorten t link, if_pos rfl, next]
  · intro u is_over below
    rcases split is_over with under | above
    · exact lower.settled u is_over under
    · exact upper.settled u above below
  · rw [s.bestOf_shorten t link inside]
    split
    · exact upper.best_over.trans lower.is_over
    · exact lower.best_over
  · rw [s.bestOf_shorten t link inside]
    split
    · exact upper.best_below
    · exact Nat.lt_trans upper.earlier lower.best_below
  · intro u is_over below
    rw [semi_same, semi_same, s.bestOf_shorten t link inside]
    rcases split is_over with under | above
    · have := lower.least u is_over under
      split <;> omega
    · have := upper.least u above below
      split <;> grind

theorem shorten {b : Nat} (link : s.link? v = some a) (next : s.link? a = some b) :
    g.Forest t k (s.shorten t v) := by
  have lower := forest.linked_of_link link
  have settled := forest.settled_of_link link
  have inside : v < s.best.size := by
    rw [forest.sizes.2.2]
    exact spans.inside ((spans.met_iff v).mpr (Nat.lt_of_le_of_lt (Nat.zero_le _) lower.earlier))
  have semi_same := (s.shortened_shorten t v).semiOf_eq
  refine ⟨?_, fun x later => ?_, fun x early => ?_⟩
  · simp only [Semidominators.shorten, link]
    have sizes := forest.sizes
    split <;> simpa using sizes
  · by_cases same : x = v
    · rw [same]
      exact ⟨b, forest.linked_shorten spans link next⟩
    · obtain ⟨c, old⟩ := forest.linked x later
      have best_same : (s.shorten t v).bestOf x = s.bestOf x := by
        rw [s.bestOf_shorten t link inside, if_neg fun h => same h.1]
      refine ⟨c, ?_, old.is_over, old.earlier, old.settled, ?_, ?_, ?_⟩
      · rw [s.link?_shorten t link, if_neg same, old.link]
      · rw [best_same]
        exact old.best_over
      · rw [best_same]
        exact old.best_below
      · intro u is_over below
        rw [best_same, semi_same, semi_same]
        exact old.least u is_over below
  · have other : x ≠ v := by
      rintro rfl
      omega
    rw [s.link?_shorten t link, if_neg other, s.bestOf_shorten t link inside,
      if_neg fun h => other h.1]
    exact forest.unlinked x early

/-- Following the trail of a node, the uppermost link first, brings it to an unlinked node. -/
theorem shorten_trail (fuel : Nat) (link : s.link? v = some a) (enough : t.placeOf v ≤ fuel) :
    g.Forest t k ((s.trail fuel v).foldr (Semidominators.shorten t) s) ∧
      Shortened s ((s.trail fuel v).foldr (Semidominators.shorten t) s) ∧
      (∀ x, t.placeOf v < t.placeOf x →
        ((s.trail fuel v).foldr (Semidominators.shorten t) s).link? x = s.link? x) ∧
      ∃ r, ((s.trail fuel v).foldr (Semidominators.shorten t) s).link? v = some r ∧
        ((s.trail fuel v).foldr (Semidominators.shorten t) s).link? r = none := by
  induction fuel generalizing v a with
  | zero =>
    have := (forest.linked_of_link link).earlier
    omega
  | succ fuel ih =>
    have linked := forest.linked_of_link link
    simp only [trail, link]
    cases next : s.link? a with
    | none => exact ⟨forest, .refl, fun _ _ => rfl, a, link, next⟩
    | some b =>
      have earlier := linked.earlier
      obtain ⟨upper, same, kept, r, up, top⟩ := ih next (by omega)
      simp only [Option.isSome_some, if_true, List.foldr_cons]
      generalize (s.trail fuel a).foldr (Semidominators.shorten t) s = s₁ at upper same kept up top
      have link₁ : s₁.link? v = some a := (kept v earlier).trans link
      refine ⟨upper.shorten spans link₁ up, same.trans (s₁.shortened_shorten t v), fun x later => ?_,
        r, ?_, ?_⟩
      · rw [s₁.link?_shorten t link₁, if_neg (by rintro rfl; omega), kept x (by omega)]
      · rw [s₁.link?_shorten t link₁, if_pos rfl, up]
      · rw [s₁.link?_shorten t link₁, if_neg, top]
        rintro rfl
        rw [link₁] at top
        cases top

/-- The node found has the earliest semidominator among the settled ones from `v` up. -/
theorem eval (v : Nat) :
    g.Forest t k (s.eval t v).2 ∧ Shortened s (s.eval t v).2 ∧
      (t.placeOf v ≤ k → (s.eval t v).1 = v) ∧
      (k < t.placeOf v → t.Over (s.eval t v).1 v ∧ k < t.placeOf (s.eval t v).1 ∧
        ∀ y, t.Over y v → k < t.placeOf y →
          t.placeOf (s.semiOf (s.eval t v).1) ≤ t.placeOf (s.semiOf y)) := by
  unfold Semidominators.eval
  cases link : s.link? v with
  | none =>
    refine ⟨forest, .refl, fun _ => rfl, fun settled => ?_⟩
    obtain ⟨a, linked⟩ := forest.linked v settled
    rw [linked.link] at link
    cases link
  | some a =>
    have settled := forest.settled_of_link link
    have enough : t.placeOf v ≤ s.link.size := by
      rw [forest.sizes.2.1]
      exact Nat.le_trans (spans.bound v) spans.length_le
    obtain ⟨after, same, _, r, up, top⟩ := forest.shorten_trail spans s.link.size link enough
    simp only [Option.isSome_some, if_true, compress]
    generalize (s.trail s.link.size v).foldr (Semidominators.shorten t) s = s₁ at after same up top
    have linked := after.linked_of_link up
    have r_early : t.placeOf r ≤ k := by
      by_contra late
      obtain ⟨b, upper⟩ := after.linked r (Nat.lt_of_not_le late)
      rw [upper.link] at top
      cases top
    refine ⟨after, same, fun early => ?_, fun _ => ⟨linked.best_over, ?_, fun y is_over late => ?_⟩⟩
    · omega
    · exact linked.settled _ linked.best_over linked.best_below
    · have least := linked.least y is_over (by omega)
      rwa [same.semiOf_eq, same.semiOf_eq] at least

end Forest

/-- Semidominators of nodes that are not settled do not count. -/
theorem Forest.of_semi {s' : Semidominators} (forest : g.Forest t k s) (link : s'.link = s.link)
    (best : s'.best = s.best) (size : s'.semi.size = s.semi.size)
    (semi : ∀ x, k < t.placeOf x → s'.semiOf x = s.semiOf x) : g.Forest t k s' := by
  have link_same (x : Nat) : s'.link? x = s.link? x := by rw [link?, link?, link]
  have best_same (x : Nat) : s'.bestOf x = s.bestOf x := by rw [bestOf, bestOf, best]
  refine ⟨?_, fun v later => ?_, fun v early => ?_⟩
  · rw [link, best, size]
    exact forest.sizes
  · obtain ⟨a, linked⟩ := forest.linked v later
    refine ⟨a, (link_same v).trans linked.link, linked.is_over, linked.earlier, linked.settled, ?_, ?_,
      fun u is_over below => ?_⟩
    · rw [best_same]
      exact linked.best_over
    · rw [best_same]
      exact linked.best_below
    · rw [best_same, semi _ (linked.settled u is_over below),
        semi _ (linked.settled _ linked.best_over linked.best_below)]
      exact linked.least u is_over below
  · rw [link_same, best_same]
    exact forest.unlinked v early

/-! Linking one node. -/

section Enlist

variable {w p : Nat} (spans : g.Spans root t) (link : t.above? w = some p)
  (w_next : t.placeOf w = k + 1)

include spans link

/-- Between a node and the one above it there is nothing. -/
theorem Spans.eq_of_over {u : Nat} (is_over : t.Over u w) (below : t.placeOf p < t.placeOf u) :
    u = w := by
  by_contra other
  have := spans.placeOf_le (is_over.of_above other link)
  omega

include w_next

theorem Spans.eq_or_later (later : k < t.placeOf v) : v = w ∨ k + 1 < t.placeOf v := by
  obtain ⟨w_met, _⟩ := spans.edge w p link
  have v_met : v ∈ t.met := (spans.met_iff v).mpr (Nat.lt_of_le_of_lt (Nat.zero_le k) later)
  rcases Nat.lt_or_eq_of_le (Nat.succ_le_of_lt later) with lt | same
  · exact .inr lt
  · exact .inl (spans.placeOf_inj v_met w_met (same.symm.trans w_next.symm))

theorem Forest.enlist (forest : g.Forest t (k + 1) s) : g.Forest t k (s.enlist w p) := by
  obtain ⟨w_met, _, p_earlier, _⟩ := spans.edge w p link
  have inside : w < s.link.size := by
    rw [forest.sizes.2.1]
    exact spans.inside w_met
  have links := s.link?_enlist p inside
  refine ⟨by simpa [Semidominators.enlist] using forest.sizes, fun v later => ?_, fun v early => ?_⟩
  · rcases spans.eq_or_later link w_next later with rfl | settled
    · have best_itself : (s.enlist v p).bestOf v = v := (forest.unlinked v (by omega)).2
      refine ⟨p, by rw [links, if_pos rfl], .child .self link, p_earlier,
        fun u is_over below => ?_, ?_, ?_, fun u is_over below => ?_⟩
      · rw [spans.eq_of_over link is_over below]
        exact later
      · rw [best_itself]
        exact .self
      · rw [best_itself]
        exact p_earlier
      · rw [best_itself, spans.eq_of_over link is_over below]
    · obtain ⟨a, old⟩ := forest.linked v settled
      have other : v ≠ w := by
        rintro rfl
        omega
      exact ⟨a, by rw [links, if_neg other, old.link], old.is_over, old.earlier,
        fun u is_over below => Nat.lt_of_succ_lt (old.settled u is_over below), old.best_over,
        old.best_below, old.least⟩
  · rw [links, if_neg (by rintro rfl; omega)]
    exact forest.unlinked v (by omega)

end Enlist

end Digraph

end ScriptFlow
