import ScriptFlow.Proofs.Digraph.SpanningTree

/-! Semidominators. The strict dominators of a node are the nodes above it in the spanning tree that
no node in between bypasses, and it is the semidominators that say which nodes are bypassed. -/

namespace ScriptFlow.Digraph

variable {w y p d : Nat}

/-- A way from `v` to `w` leads over nodes that are all met later than `w`. -/
inductive High (g : Digraph) (t : SpanningTree) (w : Nat) : Nat → Prop where
  | edge {v : Nat} : v ∈ t.met → w ∈ g.successors v → High g t w v
  | step {v x : Nat} : v ∈ t.met → x ∈ g.successors v → t.placeOf w < t.placeOf x → High g t w x →
      High g t w v

/-- The earliest node from which such a way leads to `w`. -/
structure IsSemidominator (g : Digraph) (t : SpanningTree) (w s : Nat) : Prop where
  high : g.High t w s
  least : ∀ v, g.High t w v → t.placeOf s ≤ t.placeOf v

/-- A strict dominator that all other ones dominate. -/
structure Closest (g : Digraph) (entry d w : Nat) : Prop where
  dominates : g.StrictlyDominates entry d w
  closest : ∀ a, g.StrictlyDominates entry a w → a = d ∨ g.StrictlyDominates entry a d

variable {g : Digraph} {root : Nat} {t : SpanningTree}

namespace High

theorem met {v : Nat} (high : g.High t w v) : v ∈ t.met := by
  cases high with
  | edge met _ => exact met
  | step met _ _ _ => exact met

/-- Ways can be joined at a node that is later than the end. -/
theorem trans {x : Nat} (later : t.placeOf w < t.placeOf y) (first : g.High t y x)
    (second : g.High t w y) : g.High t w x := by
  induction first with
  | edge met edge => exact .step met edge later second
  | step met edge after _ ih => exact .step met edge (Nat.lt_trans later after) ih

end High

namespace Spans

variable (spans : g.Spans root t)

include spans

theorem high_above (link : t.above? w = some p) : g.High t w p := by
  obtain ⟨_, met, _, edge⟩ := spans.edge w p link
  exact .edge met edge

/-- A way that starts before its end starts above it. -/
theorem over_of_high {v : Nat} (member : w ∈ t.met) (high : g.High t w v)
    (le : t.placeOf v ≤ t.placeOf w) : t.Over v w := by
  cases high with
  | edge met edge =>
    rcases Nat.lt_or_eq_of_le le with lt | same
    · exact spans.forward v w met member edge lt
    · rw [spans.placeOf_inj met member same]
      exact .self
  | step met edge later rest =>
    have down := spans.forward _ _ met rest.met edge (Nat.lt_of_le_of_lt le later)
    exact spans.convex v w _ down member le (Nat.le_of_lt later)

theorem high_of_over {u : Nat} (is_over : t.Over y u) (later : t.placeOf w < t.placeOf y)
    (high : g.High t w u) : g.High t w y := by
  induction is_over with
  | self => exact high
  | child above link ih =>
    obtain ⟨_, met, lt, edge⟩ := spans.edge _ _ link
    have after : t.placeOf w < t.placeOf _ :=
      Nat.lt_of_lt_of_le later (Nat.le_trans (spans.placeOf_le above) (Nat.le_of_lt lt))
    exact ih (.step met edge after high)

/-- A way ends with an edge from a node below one that has a way of its own from the same start. -/
theorem exists_upper {x : Nat} (high : g.High t w x) : w ∈ g.successors x ∨
    ∃ u v, v ∈ t.met ∧ w ∈ g.successors v ∧ t.Over u v ∧ t.placeOf w < t.placeOf u ∧
      g.High t u x := by
  induction high with
  | edge _ edge => exact .inl edge
  | @step x y met edge later rest ih =>
    rcases ih with last | ⟨u, v, v_met, last, is_over, u_later, upper⟩
    · exact .inr ⟨y, y, rest.met, last, .self, later, .edge met edge⟩
    · refine .inr ?_
      have u_met := spans.met_of_over is_over v_met
      by_cases after : t.placeOf u < t.placeOf y
      · exact ⟨u, v, v_met, last, is_over, u_later, .step met edge after upper⟩
      · have y_over := spans.over_of_high u_met upper (Nat.le_of_not_lt after)
        exact ⟨y, v, v_met, last, y_over.trans is_over, later, .edge met edge⟩

end Spans

namespace IsSemidominator

variable (spans : g.Spans root t)

include spans

theorem lt {s : Nat} (semi : g.IsSemidominator t w s) (link : t.above? w = some p) :
    t.placeOf s < t.placeOf w :=
  Nat.lt_of_le_of_lt (semi.least p (spans.high_above link)) (spans.edge w p link).2.2.1

theorem is_over {s : Nat} (semi : g.IsSemidominator t w s) (link : t.above? w = some p) :
    t.Over s w :=
  spans.over_of_high (spans.edge w p link).1 semi.high (Nat.le_of_lt (semi.lt spans link))

end IsSemidominator

/-! Ways round a node. -/

section Avoiding

variable (spans : g.Spans root t)

include spans

/-- The tree leads past every node that is not above. -/
theorem Spans.avoiding_of_not_over {v : Nat} (member : v ∈ t.met) (apart : ¬t.Over d v) :
    g.ReachedAvoiding root d v := by
  have is_over := spans.root_over member
  induction is_over with
  | self => exact .start ⟨spans.inside member, fun same => apart (same ▸ .self)⟩
  | child _ link ih =>
    obtain ⟨_, p_met, _, edge⟩ := spans.edge _ _ link
    exact .step (ih p_met fun above => apart (.child above link)) edge
      ⟨spans.inside member, fun same => apart (same ▸ .self)⟩

theorem Spans.over_of_dominates {v : Nat} (member : v ∈ t.met)
    (dom : g.StrictlyDominates root d v) : t.Over d v := by
  by_contra apart
  exact dom.2 (spans.avoiding_of_not_over member apart)

theorem Spans.avoiding_of_over (avoiding : g.ReachedAvoiding root d y)
    (is_over : t.Over y w) (later : t.placeOf d < t.placeOf y) : g.ReachedAvoiding root d w := by
  induction is_over with
  | self => exact avoiding
  | child above link ih =>
    obtain ⟨met, _, lt, edge⟩ := spans.edge _ _ link
    refine .step ih edge ⟨spans.inside met, ?_⟩
    rintro rfl
    have := spans.placeOf_le above
    omega

theorem Spans.avoiding_of_high {x : Nat} (avoiding : g.ReachedAvoiding root d x)
    (high : g.High t y x) (member : y ∈ t.met) (later : t.placeOf d < t.placeOf y) :
    g.ReachedAvoiding root d y := by
  induction high with
  | edge _ edge => exact .step avoiding edge ⟨spans.inside member, fun same => by simp [same] at later⟩
  | step _ edge after rest ih =>
    refine ih (.step avoiding edge ⟨spans.inside rest.met, ?_⟩)
    rintro rfl
    omega

/-- A node later than `d` that is reached past `d` has a node above it, later than `d` as well, to
which a way leads from a node before `d`. -/
theorem Spans.exists_bypass (complete : ∀ v, v ∈ t.met ↔ g.Reached root v) {v : Nat}
    (d_met : d ∈ t.met) (avoiding : g.ReachedAvoiding root d v) (later : t.placeOf d < t.placeOf v) :
    ∃ y x, t.Over y v ∧ t.placeOf d < t.placeOf y ∧ g.High t y x ∧ t.placeOf x < t.placeOf d := by
  induction avoiding with
  | start _ =>
    have := spans.placeOf_root_le d_met
    omega
  | @step u v before edge here ih =>
    have reached : g.Reached root u := before.mono fun _ h => h.1
    have u_met : u ∈ t.met := (complete u).mpr reached
    have v_met : v ∈ t.met := (complete v).mpr (.step reached edge here.1)
    rcases Nat.lt_trichotomy (t.placeOf u) (t.placeOf d) with u_before | same | u_later
    · exact ⟨v, u, .self, later, .edge u_met edge, u_before⟩
    · exact absurd (spans.placeOf_inj u_met d_met same) before.holds.2
    · obtain ⟨y, x, is_over, y_later, high, x_before⟩ := ih u_later
      by_cases up : t.placeOf v < t.placeOf y
      · -- the way goes on down the tree and back up to `v`
        refine ⟨v, x, .self, later, high.trans up ?_, x_before⟩
        exact spans.high_of_over is_over up (.edge u_met edge)
      · refine ⟨y, x, ?_, y_later, high, x_before⟩
        rcases Nat.lt_or_ge (t.placeOf u) (t.placeOf v) with down | back
        · exact is_over.trans (spans.forward u v u_met v_met edge down)
        · exact spans.convex y v u is_over v_met (Nat.le_of_not_lt up) back

end Avoiding

/-! Dominators from semidominators. -/

section Dominators

variable (spans : g.Spans root t) (complete : ∀ v, v ∈ t.met ↔ g.Reached root v) {σ : Nat → Nat}
  (semi : ∀ y p, t.above? y = some p → g.IsSemidominator t y (σ y))

include spans complete semi

/-- Strict dominators are the nodes above that no semidominator in between comes before. -/
theorem strictlyDominates_iff (member : w ∈ t.met) :
    g.StrictlyDominates root d w ↔ d ≠ w ∧ t.Over d w ∧
      ∀ y, t.Over y w → t.placeOf d < t.placeOf y → t.placeOf d ≤ t.placeOf (σ y) := by
  constructor
  · intro dom
    have is_over := spans.over_of_dominates member dom
    refine ⟨dom.1, is_over, fun y y_over later => ?_⟩
    by_contra before
    have y_met := spans.met_of_over y_over member
    have y_below : y ≠ root := by
      rintro rfl
      have := spans.placeOf_root_le (spans.met_of_over is_over member)
      omega
    obtain ⟨p, link⟩ := spans.above y y_met y_below
    have high := (semi y p link).high
    have start : g.ReachedAvoiding root d (σ y) := by
      refine spans.avoiding_of_not_over high.met fun above => ?_
      have := spans.placeOf_le above
      omega
    exact dom.2 (spans.avoiding_of_over (spans.avoiding_of_high start high y_met later) y_over later)
  · rintro ⟨other, is_over, bound⟩
    refine ⟨other, fun avoiding => ?_⟩
    obtain ⟨y, x, y_over, later, high, before⟩ := spans.exists_bypass complete
      (spans.met_of_over is_over member) avoiding (spans.placeOf_lt is_over other)
    have y_below : y ≠ root := by
      rintro rfl
      have := spans.placeOf_root_le (spans.met_of_over is_over member)
      omega
    obtain ⟨p, link⟩ := spans.above y (spans.met_of_over y_over member) y_below
    have := (semi y p link).least x high
    have := bound y y_over later
    omega

/-- The semidominator is the closest dominator if no semidominator in between comes before it. -/
theorem closest_of_least (link : t.above? w = some p)
    (least : ∀ y, t.Over y w → t.placeOf (σ w) < t.placeOf y → t.placeOf (σ w) ≤ t.placeOf (σ y)) :
    g.Closest root (σ w) w := by
  have member := (spans.edge w p link).1
  have lt := (semi w p link).lt spans link
  have is_over := (semi w p link).is_over spans link
  have dom := strictlyDominates_iff spans complete semi (d := σ w) member
  refine ⟨dom.mpr ⟨fun same => ?_, is_over, least⟩, fun a a_dom => ?_⟩
  · rw [same] at lt
    exact Nat.lt_irrefl _ lt
  · obtain ⟨other, a_over, bound⟩ := (strictlyDominates_iff spans complete semi member).mp a_dom
    have le := bound w .self (spans.placeOf_lt a_over other)
    by_cases same : a = σ w
    · exact .inl same
    · refine .inr ((strictlyDominates_iff spans complete semi (spans.met_of_over is_over member)).mpr
        ⟨same, spans.over_of_le a_over is_over le, fun y y_over later => ?_⟩)
      exact bound y (y_over.trans is_over) later

/-- Otherwise the node in between with the earliest semidominator has the same dominators. -/
theorem strictlyDominates_congr {u : Nat} (link : t.above? w = some p) (u_over : t.Over u w)
    (u_later : t.placeOf (σ w) < t.placeOf u) (before : t.placeOf (σ u) < t.placeOf (σ w))
    (least : ∀ y, t.Over y w → t.placeOf (σ w) < t.placeOf y → t.placeOf (σ u) ≤ t.placeOf (σ y))
    (a : Nat) : g.StrictlyDominates root a u ↔ g.StrictlyDominates root a w := by
  have member := (spans.edge w p link).1
  have u_met := spans.met_of_over u_over member
  rw [strictlyDominates_iff spans complete semi member,
    strictlyDominates_iff spans complete semi u_met]
  constructor
  · rintro ⟨other, is_over, bound⟩
    have le := bound u .self (spans.placeOf_lt is_over other)
    refine ⟨?_, is_over.trans u_over, fun y y_over later => ?_⟩
    · rintro rfl
      have := spans.placeOf_le u_over
      have := spans.placeOf_lt is_over other
      omega
    · by_cases upper : t.placeOf (σ w) < t.placeOf y
      · exact Nat.le_trans le (least y y_over upper)
      · have y_upper := spans.over_of_le y_over u_over (by omega)
        exact bound y y_upper later
  · rintro ⟨other, is_over, bound⟩
    have le := bound w .self (spans.placeOf_lt is_over other)
    refine ⟨?_, spans.over_of_le is_over u_over (by omega), fun y y_over later =>
      bound y (y_over.trans u_over) later⟩
    rintro rfl
    omega

end Dominators

end ScriptFlow.Digraph
