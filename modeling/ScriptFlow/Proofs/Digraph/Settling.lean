import ScriptFlow.Proofs.Digraph.LinkForest

/-! Settling the nodes of a spanning tree finds their semidominators, and the conclusions drawn from
them find their closest dominators. -/

namespace ScriptFlow

namespace Semidominators

/-! Tables after an update. -/

variable (s : Semidominators)

theorem semiOf_set {w : Nat} (inside : w < s.semi.size) (x v : Nat) :
    semiOf { s with semi := s.semi.setIfInBounds w x } v = if v = w then x else s.semiOf v := by
  simp only [semiOf, Array.getD_eq_getD_getElem?, Array.getElem?_setIfInBounds]
  grind

theorem waitingFor_enlist {w : Nat} (p : Nat) (inside : s.semiOf w < s.waiting.size) (x : Nat) :
    (s.enlist w p).waitingFor x =
      if x = s.semiOf w then s.waitingFor x ++ [w] else s.waitingFor x := by
  simp only [enlist, waitingFor, Array.getD_eq_getD_getElem?, Array.getElem?_modify]
  grind

theorem waitingFor_dismiss (p x : Nat) :
    (s.dismiss p).waitingFor x = if x = p then [] else s.waitingFor x := by
  simp only [dismiss, waitingFor, Array.getD_eq_getD_getElem?, Array.getElem?_setIfInBounds]
  grind

theorem dominator?_set {v : Nat} (d : Option Nat) (inside : v < s.dominator.size) (x : Nat) :
    dominator? { s with dominator := s.dominator.setIfInBounds v d } x =
      if x = v then d else s.dominator? x := by
  simp only [dominator?, Array.getD_eq_getD_getElem?, Array.getElem?_setIfInBounds]
  grind

end Semidominators

namespace Digraph

open Semidominators

variable {g : Digraph} {root : Nat} {t : SpanningTree} {k : Nat} {s : Semidominators}

/-! The semidominator of one node. -/

/-- What is known of `w`, the next node to be settled, once the predecessors in `done` are seen. -/
structure Lowered (g : Digraph) (t : SpanningTree) (k w : Nat) (s₀ : Semidominators)
    (done : List Nat) (s : Semidominators) : Prop where
  forest : g.Forest t k s
  others : ∀ x, x ≠ w → s.semiOf x = s₀.semiOf x
  waiting : s.waiting = s₀.waiting
  dominator : s.dominator = s₀.dominator
  origin : s.semiOf w = w ∨ g.High t w (s.semiOf w)
  le : t.placeOf (s.semiOf w) ≤ t.placeOf w
  below : ∀ v ∈ done, 0 < t.placeOf v → t.placeOf v ≤ k → t.placeOf (s.semiOf w) ≤ t.placeOf v
  beyond : ∀ v ∈ done, ∀ u, t.Over u v → k < t.placeOf u →
    t.placeOf (s.semiOf w) ≤ t.placeOf (s₀.semiOf u)

/-- The nodes with places beyond `k` are settled. -/
structure Settled (g : Digraph) (t : SpanningTree) (k : Nat) (s : Semidominators) : Prop where
  forest : g.Forest t k s
  semi : ∀ v p, t.above? v = some p → k < t.placeOf v → g.IsSemidominator t v (s.semiOf v)
  itself : ∀ v, t.placeOf v ≤ k → s.semiOf v = v

section Lower

variable {s₀ : Semidominators} {w : Nat} (spans : g.Spans root t) (settled : g.Settled t k s₀)
  (w_met : w ∈ t.met) (w_next : t.placeOf w = k)

include spans settled w_met w_next

/-- What a predecessor gives is the start of a way to `w`. -/
theorem high_of_eval {v : Nat} (v_met : v ∈ t.met) (edge : w ∈ g.successors v) {u : Nat}
    (early : t.placeOf v ≤ k → u = v) (late : k < t.placeOf v → t.Over u v ∧ k < t.placeOf u) :
    g.High t w (s₀.semiOf u) := by
  rcases Nat.lt_or_ge k (t.placeOf v) with later | before
  · obtain ⟨is_over, u_late⟩ := late later
    have not_root : u ≠ root := by
      rintro rfl
      have := spans.placeOf_root_le w_met
      omega
    obtain ⟨p, link⟩ := spans.above u (spans.met_of_over is_over v_met) not_root
    have semi := settled.semi u p link u_late
    exact semi.high.trans (by omega) (spans.high_of_over is_over (by omega) (.edge v_met edge))
  · rw [early before, settled.itself v before]
    exact .edge v_met edge

omit spans settled w_met in
/-- One predecessor more, once the semidominator is not later than what it gives. -/
theorem Lowered.cons {done : List Nat} {s s' : Semidominators} (lowered : g.Lowered t k w s₀ done s)
    (forest : g.Forest t k s') (waiting : s'.waiting = s.waiting)
    (dominator : s'.dominator = s.dominator) (others : ∀ x, x ≠ w → s'.semiOf x = s.semiOf x)
    (origin : s'.semiOf w = w ∨ g.High t w (s'.semiOf w))
    (le : t.placeOf (s'.semiOf w) ≤ t.placeOf (s.semiOf w)) {v : Nat}
    (below : 0 < t.placeOf v → t.placeOf v ≤ k → t.placeOf (s'.semiOf w) ≤ t.placeOf v)
    (beyond : ∀ u, t.Over u v → k < t.placeOf u →
      t.placeOf (s'.semiOf w) ≤ t.placeOf (s.semiOf u)) :
    g.Lowered t k w s₀ (v :: done) s' := by
  refine ⟨forest, fun x other => (others x other).trans (lowered.others x other),
    waiting.trans lowered.waiting, dominator.trans lowered.dominator, origin,
    Nat.le_trans le lowered.le, fun x member => ?_, fun x member u is_over late => ?_⟩
  · rcases List.mem_cons.mp member with rfl | old
    · exact below
    · exact fun met early => Nat.le_trans le (lowered.below x old met early)
  · have u_other : u ≠ w := by
      rintro rfl
      omega
    rcases List.mem_cons.mp member with rfl | old
    · rw [← lowered.others u u_other]
      exact beyond u is_over late
    · exact Nat.le_trans le (lowered.beyond x old u is_over late)

theorem Lowered.step {done : List Nat} {s : Semidominators} (lowered : g.Lowered t k w s₀ done s)
    {v : Nat} (edge : w ∈ g.successors v) : g.Lowered t k w s₀ (v :: done) (lower t w s v) := by
  unfold lower
  split
  · rename_i unmet
    refine lowered.cons w_next lowered.forest rfl rfl (fun _ _ => rfl) lowered.origin (Nat.le_refl _)
      (fun met => absurd unmet (Nat.ne_of_gt met)) fun u is_over late => ?_
    have := spans.placeOf_le is_over
    omega
  · rename_i met
    obtain ⟨forest, same, early, late⟩ := lowered.forest.eval spans v
    generalize s.eval t v = found at *
    obtain ⟨u, s₁⟩ := found
    have semi_same := same.semiOf_eq
    dsimp only at *
    rw [semi_same, semi_same]
    have itself (before : t.placeOf v ≤ k) : t.placeOf (s.semiOf u) ≤ t.placeOf v := by
      rw [early before]
      by_cases loop : v = w
      · rw [loop]
        exact lowered.le
      · rw [lowered.others v loop, settled.itself v before]
    split
    · rename_i lower_one
      have inside : w < s₁.semi.size := by
        rw [forest.sizes.1]
        exact spans.inside w_met
      have semi_set := s₁.semiOf_set inside (s.semiOf u)
      have other : u ≠ w := by
        rintro rfl
        omega
      have kept : g.Forest t k { s₁ with semi := s₁.semi.setIfInBounds w (s.semiOf u) } := by
        refine forest.of_semi rfl rfl (by simp) fun x x_late => ?_
        rw [semi_set, if_neg]
        rintro rfl
        omega
      refine lowered.cons w_next kept same.waiting same.dominator (fun x x_other => ?_) (.inr ?_) ?_
        (fun _ before => ?_) fun y is_over y_late => ?_
      · rw [semi_set, if_neg x_other, semi_same]
      · rw [semi_set, if_pos rfl, lowered.others u other]
        exact high_of_eval spans settled w_met w_next ((spans.met_iff v).mpr (Nat.pos_of_ne_zero met))
          edge early fun later => ⟨(late later).1, (late later).2.1⟩
      · rw [semi_set, if_pos rfl]
        exact Nat.le_of_lt lower_one
      · rw [semi_set, if_pos rfl]
        exact itself before
      · rw [semi_set, if_pos rfl]
        exact (late (Nat.lt_of_lt_of_le y_late (spans.placeOf_le is_over))).2.2 y is_over y_late
    · rename_i not_lower
      refine lowered.cons w_next forest same.waiting same.dominator (fun x _ => semi_same x) ?_ ?_
        (fun _ before => ?_) fun y is_over y_late => ?_
      · rw [semi_same]
        exact lowered.origin
      · rw [semi_same]
      · rw [semi_same]
        exact Nat.le_trans (Nat.le_of_not_lt not_lower) (itself before)
      · rw [semi_same]
        exact Nat.le_trans (Nat.le_of_not_lt not_lower)
          ((late (Nat.lt_of_lt_of_le y_late (spans.placeOf_le is_over))).2.2 y is_over y_late)

theorem lowered_foldl (vs : List Nat) (edges : ∀ v ∈ vs, w ∈ g.successors v) {done : List Nat}
    {s : Semidominators} (lowered : g.Lowered t k w s₀ done s) :
    g.Lowered t k w s₀ (vs.reverse ++ done) (vs.foldl (lower t w) s) := by
  induction vs generalizing done s with
  | nil => exact lowered
  | cons v vs ih =>
    have first := lowered.step spans settled w_met w_next (edges v List.mem_cons_self)
    have rest := ih (fun x member => edges x (List.mem_cons_of_mem _ member)) first
    simpa using rest

/-- Once all predecessors are seen, the semidominator is found. -/
theorem Lowered.isSemidominator {s : Semidominators} {done : List Nat} {p : Nat}
    (lowered : g.Lowered t k w s₀ done s) (link : t.above? w = some p)
    (all : ∀ v, w ∈ g.successors v → v ∈ done) : g.IsSemidominator t w (s.semiOf w) := by
  obtain ⟨_, p_met, p_earlier, p_edge⟩ := spans.edge w p link
  have p_below := lowered.below p (all p p_edge) ((spans.met_iff p).mp p_met) (by omega)
  refine ⟨lowered.origin.resolve_left fun itself => ?_, fun x high => ?_⟩
  · rw [itself] at p_below
    omega
  · rcases spans.exists_upper high with edge | ⟨u, v, v_met, edge, is_over, u_later, upper⟩
    · by_cases before : t.placeOf x ≤ k
      · exact lowered.below x (all x edge) ((spans.met_iff x).mp high.met) before
      · omega
    · have not_root : u ≠ root := by
        rintro rfl
        have := spans.placeOf_root_le w_met
        omega
      obtain ⟨q, u_link⟩ := spans.above u (spans.met_of_over is_over v_met) not_root
      exact Nat.le_trans (lowered.beyond v (all v edge) u is_over (by omega))
        ((settled.semi u q u_link (by omega)).least x upper)

end Lower

/-! Looking for dominators. -/

/-- The answer `d` leads to the dominator of `v`: it is the semidominator, if nothing in between
bypasses that, and else the node in between with the earliest semidominator. -/
structure Promising (t : SpanningTree) (k : Nat) (σ : Nat → Nat) (v d : Nat) : Prop where
  between : ∀ y, t.Over y v → t.placeOf (σ v) < t.placeOf y → k < t.placeOf y
  answer : (d = σ v ∧ ∀ y, t.Over y v → t.placeOf (σ v) < t.placeOf y →
      t.placeOf (σ v) ≤ t.placeOf (σ y)) ∨
    (t.Over d v ∧ t.placeOf (σ v) < t.placeOf d ∧ t.placeOf (σ d) < t.placeOf (σ v) ∧
      ∀ y, t.Over y v → t.placeOf (σ v) < t.placeOf y → t.placeOf (σ d) ≤ t.placeOf (σ y))

theorem Promising.mono {σ τ : Nat → Nat} {j v d : Nat} (promising : Promising t k σ v d)
    (le : j ≤ k) (same : ∀ x, k < t.placeOf x → τ x = σ x) (settled : k < t.placeOf v) :
    Promising t j τ v d := by
  have v_same := same v settled
  refine ⟨fun y is_over below => ?_, ?_⟩
  · rw [v_same] at below
    exact Nat.lt_of_le_of_lt le (promising.between y is_over below)
  · rw [v_same]
    rcases promising.answer with ⟨rfl, least⟩ | ⟨is_over, below, before, least⟩
    · refine .inl ⟨rfl, fun y y_over y_below => ?_⟩
      rw [same y (promising.between y y_over y_below)]
      exact least y y_over y_below
    · refine .inr ⟨is_over, below, ?_, fun y y_over y_below => ?_⟩
      · rw [same d (promising.between d is_over below)]
        exact before
      · rw [same d (promising.between d is_over below), same y (promising.between y y_over y_below)]
        exact least y y_over y_below

/-- Every settled node waits for the one below its semidominator to be settled, or has an answer. -/
structure Underway (g : Digraph) (t : SpanningTree) (k : Nat) (s : Semidominators) : Prop
    extends Settled g t k s where
  sizes : s.waiting.size = g.size ∧ s.dominator.size = g.size
  waits : ∀ x v, v ∈ s.waitingFor x → k < t.placeOf v ∧ s.semiOf v = x ∧
    ∀ c, t.above? c = some x → t.Over c v → t.placeOf c ≤ k
  found : ∀ v, k < t.placeOf v → v ∈ s.waitingFor (s.semiOf v) ∨
    ∃ d, s.dominator? v = some d ∧ Promising t k s.semiOf v d
  unfound : ∀ v, t.placeOf v ≤ k → s.dominator? v = none

/-- What is known once the nodes in `done`, which wait below `p`, are answered. -/
structure Released (g : Digraph) (t : SpanningTree) (k : Nat) (s₂ : Semidominators)
    (done : List Nat) (s : Semidominators) : Prop where
  forest : g.Forest t k s
  semi : s.semi = s₂.semi
  waiting : s.waiting = s₂.waiting
  size : s.dominator.size = g.size
  kept : ∀ x, x ∉ done → s.dominator? x = s₂.dominator? x
  found : ∀ x ∈ done, ∃ d, s.dominator? x = some d ∧ Promising t k s₂.semiOf x d

section Release

variable {w p : Nat} {s₂ : Semidominators} (spans : g.Spans root t) (link : t.above? w = some p)
  (w_next : t.placeOf w = k + 1) (settled : g.Settled t k s₂)

include spans link w_next

/-- From a node that waits below `p` up to `p`, the nodes are the settled ones. -/
theorem Spans.below_iff {v y : Nat} (w_over : t.Over w v) (is_over : t.Over y v) :
    t.placeOf p < t.placeOf y ↔ k < t.placeOf y := by
  have p_earlier := (spans.edge w p link).2.2.1
  refine ⟨fun below => ?_, fun late => by omega⟩
  by_contra early
  have upper := spans.over_of_le is_over w_over (by omega)
  obtain rfl := spans.eq_of_over link upper below
  omega

include settled

/-- What is found from a node up to the settled one below its semidominator answers it. -/
theorem promising_of_least {v u : Nat} (w_over : t.Over w v) (v_met : v ∈ t.met)
    (semi_v : s₂.semiOf v = p) (is_over : t.Over u v) (late : k < t.placeOf u)
    (least : ∀ y, t.Over y v → k < t.placeOf y →
      t.placeOf (s₂.semiOf u) ≤ t.placeOf (s₂.semiOf y)) :
    Promising t k s₂.semiOf v (if s₂.semiOf u = s₂.semiOf v then p else u) := by
  have v_late : k < t.placeOf v := by
    have := spans.placeOf_le w_over
    omega
  have below {y : Nat} (y_over : t.Over y v) := spans.below_iff link w_next w_over y_over
  have semi_met {y : Nat} (y_over : t.Over y v) (y_late : k < t.placeOf y) : s₂.semiOf y ∈ t.met := by
    have not_root : y ≠ root := by
      rintro rfl
      have := spans.placeOf_root_le (spans.edge w p link).2.1
      have := (below y_over).mpr y_late
      omega
    obtain ⟨q, y_link⟩ := spans.above y (spans.met_of_over y_over v_met) not_root
    exact (settled.semi y q y_link y_late).high.met
  refine ⟨fun y y_over y_below => ?_, ?_⟩
  · rw [semi_v] at y_below
    exact (below y_over).mp y_below
  · rw [semi_v]
    by_cases same : s₂.semiOf u = p
    · refine .inl ⟨if_pos same, fun y y_over y_below => ?_⟩
      have := least y y_over ((below y_over).mp y_below)
      rwa [same] at this
    · rw [if_neg same]
      refine .inr ⟨is_over, (below is_over).mpr late, ?_, fun y y_over y_below =>
        least y y_over ((below y_over).mp y_below)⟩
      have le := least v .self v_late
      rw [semi_v] at le
      refine Nat.lt_of_le_of_ne le fun place_same => same ?_
      exact spans.placeOf_inj (semi_met is_over late) (spans.edge w p link).2.1 place_same

theorem Released.step {done : List Nat} {s : Semidominators} (released : g.Released t k s₂ done s)
    {v : Nat} (w_over : t.Over w v) (v_met : v ∈ t.met) (semi_v : s₂.semiOf v = p) :
    g.Released t k s₂ (v :: done) (release t p s v) := by
  have v_late : k < t.placeOf v := by
    have := spans.placeOf_le w_over
    omega
  unfold release
  obtain ⟨forest, same, _, late⟩ := released.forest.eval spans v
  generalize s.eval t v = result at *
  obtain ⟨u, s₁⟩ := result
  dsimp only at *
  obtain ⟨is_over, u_late, least⟩ := late v_late
  have semi_same (x : Nat) : s₁.semiOf x = s₂.semiOf x := by
    rw [same.semiOf_eq, semiOf, semiOf, released.semi]
  have old_same (x : Nat) : s.semiOf x = s₂.semiOf x := by rw [semiOf, semiOf, released.semi]
  simp only [old_same] at least
  have size : s₁.dominator.size = g.size := by rw [same.dominator, released.size]
  have inside : v < s₁.dominator.size := by
    rw [size]
    exact spans.inside v_met
  have promising := promising_of_least spans link w_next settled w_over v_met semi_v is_over u_late least
  rw [semi_same, semi_same]
  refine ⟨forest.of_semi rfl rfl rfl fun _ _ => rfl, same.semi.trans released.semi,
    same.waiting.trans released.waiting, by simpa using size, fun x unseen => ?_, fun x member => ?_⟩
  · have other : x ≠ v := fun here => unseen (here ▸ List.mem_cons_self)
    rw [s₁.dominator?_set _ inside, if_neg other, dominator?, same.dominator]
    exact released.kept x fun old => unseen (List.mem_cons_of_mem _ old)
  · rw [s₁.dominator?_set _ inside]
    by_cases here : x = v
    · rw [if_pos here, here]
      exact ⟨_, rfl, promising⟩
    · rw [if_neg here, dominator?, same.dominator]
      exact released.found x ((List.mem_cons.mp member).resolve_left here)

theorem released_foldl (vs : List Nat)
    (waits : ∀ v ∈ vs, t.Over w v ∧ v ∈ t.met ∧ s₂.semiOf v = p) {done : List Nat}
    {s : Semidominators} (released : g.Released t k s₂ done s) :
    g.Released t k s₂ (vs.reverse ++ done) (vs.foldl (release t p) s) := by
  induction vs generalizing done s with
  | nil => exact released
  | cons v vs ih =>
    obtain ⟨w_over, v_met, semi_v⟩ := waits v List.mem_cons_self
    have first := released.step spans link w_next settled w_over v_met semi_v
    have rest := ih (fun x member => waits x (List.mem_cons_of_mem _ member)) first
    simpa using rest

end Release

/-! Settling one node. -/

section Settle

variable {w p : Nat} (spans : g.Spans root t) (link : t.above? w = some p)
  (w_next : t.placeOf w = k + 1) (underway : g.Underway t (k + 1) s)

include spans link w_next underway

theorem Underway.lowered (symm : ∀ v w, v ∈ g.predecessors w ↔ w ∈ g.successors v) :
    g.Lowered t (k + 1) w s ((g.predecessors w).reverse ++ [])
      ((g.predecessors w).foldl (lower t w) s) := by
  have itself := underway.itself w (Nat.le_of_eq w_next)
  refine lowered_foldl spans underway.toSettled (spans.edge w p link).1 w_next _
    (fun v before => (symm v w).mp before) ⟨underway.forest, fun _ _ => rfl, rfl, rfl, .inl itself,
      Nat.le_of_eq (by rw [itself]), ?_, ?_⟩
  · intro v none
    cases none
  · intro v none
    cases none

variable {s₁ : Semidominators} {done : List Nat} (lowered : g.Lowered t (k + 1) w s done s₁)
  (semi_w : g.IsSemidominator t w (s₁.semiOf w))

include lowered semi_w

theorem Settled.enlist : g.Settled t k (s₁.enlist w p) := by
  refine ⟨lowered.forest.enlist spans link w_next, fun v q v_link late => ?_, fun v early => ?_⟩
  · rcases spans.eq_or_later link w_next late with rfl | later
    · exact semi_w
    · have other : v ≠ w := by
        rintro rfl
        omega
      have semi := underway.semi v q v_link later
      rwa [← lowered.others v other] at semi
  · have other : v ≠ w := by
      rintro rfl
      omega
    exact (lowered.others v other).trans (underway.itself v (by omega))

omit link w_next in
theorem mem_waitingFor_lowered {x v : Nat} : v ∈ (s₁.enlist w p).waitingFor x ↔
    v ∈ s.waitingFor x ∨ x = s₁.semiOf w ∧ v = w := by
  have same : s₁.waitingFor x = s.waitingFor x := by rw [waitingFor, waitingFor, lowered.waiting]
  rw [s₁.waitingFor_enlist p, same]
  · split
    · rename_i here
      simp [here]
    · rename_i elsewhere
      simp [elsewhere]
  · rw [lowered.waiting, underway.sizes.1]
    exact spans.inside semi_w.high.met

theorem below_of_waits {v : Nat} (member : v ∈ (s₁.enlist w p).waitingFor p) :
    t.Over w v ∧ v ∈ t.met ∧ (s₁.enlist w p).semiOf v = p := by
  obtain ⟨w_met, p_met, p_earlier, _⟩ := spans.edge w p link
  rcases (mem_waitingFor_lowered spans underway lowered semi_w).mp member with old | ⟨semi, rfl⟩
  · obtain ⟨late, semi, early⟩ := underway.waits p v old
    have v_met : v ∈ t.met := (spans.met_iff v).mpr (by omega)
    have other : v ≠ w := by
      rintro rfl
      omega
    have p_over : t.Over p v := by
      have not_root : v ≠ root := by
        rintro rfl
        have := spans.placeOf_root_le w_met
        omega
      obtain ⟨q, v_link⟩ := spans.above v v_met not_root
      rw [← semi]
      exact (underway.semi v q v_link late).is_over spans v_link
    obtain ⟨c, c_link, c_over⟩ := p_over.exists_child (by rintro rfl; omega)
    -- the child of `p` above `v` is not settled yet, so it is `w`
    have c_w : t.Over c w := spans.convex c w v c_over w_met (by
      have := early c c_link c_over
      omega) (by omega)
    have c_later := (spans.edge c p c_link).2.2.1
    rw [spans.eq_of_over link c_w c_later] at c_over
    exact ⟨c_over, v_met, (lowered.others v other).trans semi⟩
  · exact ⟨.self, w_met, semi.symm⟩

/-- A node that does not wait below `p` goes on waiting. -/
theorem waits_of_lowered {x v : Nat} (member : v ∈ (s₁.enlist w p).waitingFor x) (other : x ≠ p) :
    k < t.placeOf v ∧ s₁.semiOf v = x ∧
      ∀ c, t.above? c = some x → t.Over c v → t.placeOf c ≤ k := by
  -- `w` is not the child of `x`
  have earlier {c : Nat} (c_link : t.above? c = some x) (le : t.placeOf c ≤ k + 1) :
      t.placeOf c ≤ k := by
    by_contra late
    rcases spans.eq_or_later link w_next (Nat.lt_of_not_le late) with rfl | later
    · exact other (Option.some.inj (c_link.symm.trans link))
    · omega
  rcases (mem_waitingFor_lowered spans underway lowered semi_w).mp member with old | ⟨semi, rfl⟩
  · obtain ⟨late, semi, early⟩ := underway.waits x v old
    refine ⟨by omega, ?_, fun c c_link c_over => earlier c_link (early c c_link c_over)⟩
    rw [lowered.others v (by rintro rfl; omega), semi]
  · refine ⟨by omega, semi.symm, fun c c_link c_over => earlier c_link ?_⟩
    have := spans.placeOf_le c_over
    omega

theorem found_of_lowered {v : Nat} (late : k < t.placeOf v) :
    v ∈ (s₁.enlist w p).waitingFor (s₁.semiOf v) ∨
      ∃ d, s.dominator? v = some d ∧ Promising t k s₁.semiOf v d := by
  rw [mem_waitingFor_lowered spans underway lowered semi_w]
  rcases spans.eq_or_later link w_next late with rfl | later
  · exact .inl (.inr ⟨rfl, rfl⟩)
  · rcases underway.found v later with waits | ⟨d, found, promising⟩
    · rw [lowered.others v (by rintro rfl; omega)]
      exact .inl (.inl waits)
    · refine .inr ⟨d, found, promising.mono (Nat.le_succ k) (fun x x_later => ?_) later⟩
      exact lowered.others x (by rintro rfl; omega)

/-- Once those that wait below `p` are answered, `w` is settled. -/
theorem Underway.of_released {s' : Semidominators}
    (released : g.Released t k ((s₁.enlist w p).dismiss p)
      (((s₁.enlist w p).waitingFor p).reverse ++ []) s') :
    g.Underway t k s' := by
  have settled := Settled.enlist spans link w_next underway lowered semi_w
  have semi_same (x : Nat) : s'.semiOf x = s₁.semiOf x := by
    rw [semiOf, released.semi]
    rfl
  have waiting_same (x : Nat) : s'.waitingFor x =
      if x = p then [] else (s₁.enlist w p).waitingFor x := by
    rw [← waitingFor_dismiss, waitingFor, released.waiting, waitingFor]
  have dominator_same (x : Nat) (unseen : x ∉ (s₁.enlist w p).waitingFor p) :
      s'.dominator? x = s.dominator? x := by
    rw [released.kept x (by simpa using unseen), dominator?, dominator?, ← lowered.dominator]
    rfl
  refine ⟨⟨released.forest, fun v q v_link late => ?_, fun v early => ?_⟩, ⟨?_, released.size⟩,
    fun x v member => ?_, fun v late => ?_, fun v early => ?_⟩
  · rw [semi_same]
    exact settled.semi v q v_link late
  · rw [semi_same]
    exact settled.itself v early
  · rw [released.waiting, dismiss, Array.size_setIfInBounds, Semidominators.enlist,
      Array.size_modify, lowered.waiting]
    exact underway.sizes.1
  · rw [waiting_same] at member
    rw [semi_same]
    split at member
    · cases member
    · rename_i other
      exact waits_of_lowered spans link w_next underway lowered semi_w member other
  · by_cases answered : v ∈ (s₁.enlist w p).waitingFor p
    · obtain ⟨d, found, promising⟩ := released.found v (by simpa using answered)
      exact .inr ⟨d, found, promising.mono (Nat.le_refl k) (fun x _ => semi_same x) late⟩
    · rw [waiting_same, semi_same, dominator_same v answered]
      rcases found_of_lowered spans link w_next underway lowered semi_w late with
        waits | ⟨d, found, promising⟩
      · have elsewhere : s₁.semiOf v ≠ p := fun here => answered (here ▸ waits)
        rw [if_neg elsewhere]
        exact .inl waits
      · exact .inr ⟨d, found, promising.mono (Nat.le_refl k) (fun x _ => semi_same x) late⟩
  · have unseen : v ∉ (s₁.enlist w p).waitingFor p := fun member => by
      have := (below_of_waits spans link w_next underway lowered semi_w member).1
      have := spans.placeOf_le this
      omega
    rw [dominator_same v unseen]
    exact underway.unfound v (by omega)

omit lowered semi_w in
theorem Underway.settle (symm : ∀ v w, v ∈ g.predecessors w ↔ w ∈ g.successors v) :
    g.Underway t k (settle g t s w) := by
  have lowered := underway.lowered spans link w_next symm
  have semi_w := lowered.isSemidominator spans underway.toSettled (spans.edge w p link).1 w_next link
    fun v edge => by simpa using (symm v w).mpr edge
  simp only [Semidominators.settle, link, releaseAll]
  generalize (g.predecessors w).foldl (lower t w) s = s₁ at lowered semi_w
  have settled := Settled.enlist spans link w_next underway lowered semi_w
  have cleared : g.Settled t k ((s₁.enlist w p).dismiss p) :=
    ⟨settled.forest.of_semi rfl rfl rfl fun _ _ => rfl, settled.semi, settled.itself⟩
  refine Underway.of_released spans link w_next underway lowered semi_w
    (released_foldl spans link w_next cleared _ (fun v member => ?_)
      ⟨cleared.forest, rfl, rfl, ?_, fun _ _ => rfl, ?_⟩)
  · exact below_of_waits spans link w_next underway lowered semi_w member
  · rw [dismiss, Semidominators.enlist, lowered.dominator]
    exact underway.sizes.2
  · intro x none
    cases none

end Settle

/-! Settling all nodes. -/

theorem underway_start (spans : g.Spans root t) : g.Underway t t.met.length (.start g.size) := by
  have semi_itself (v : Nat) : (Semidominators.start g.size).semiOf v = v := by
    simp only [Semidominators.start, semiOf, Array.getD_eq_getD_getElem?, Array.getElem?_range]
    grind
  have best_itself (v : Nat) : (Semidominators.start g.size).bestOf v = v := by
    simp only [Semidominators.start, bestOf, Array.getD_eq_getD_getElem?, Array.getElem?_range]
    grind
  have unlinked (v : Nat) : (Semidominators.start g.size).link? v = none := by
    simp only [Semidominators.start, link?, Array.getD_eq_getD_getElem?, Array.getElem?_replicate]
    grind
  have nobody (v : Nat) : (Semidominators.start g.size).waitingFor v = [] := by
    simp only [Semidominators.start, waitingFor, Array.getD_eq_getD_getElem?,
      Array.getElem?_replicate]
    grind
  have nothing (v : Nat) : (Semidominators.start g.size).dominator? v = none := by
    simp only [Semidominators.start, dominator?, Array.getD_eq_getD_getElem?,
      Array.getElem?_replicate]
    grind
  have none_settled {v : Nat} (late : t.met.length < t.placeOf v) : False :=
    Nat.not_lt.mpr (spans.bound v) late
  refine ⟨⟨⟨?_, fun v late => (none_settled late).elim, fun v _ => ⟨unlinked v, best_itself v⟩⟩,
    fun v _ _ late => (none_settled late).elim, fun v _ => semi_itself v⟩, ?_, fun x v member => ?_,
    fun v late => (none_settled late).elim, fun v _ => nothing v⟩
  · simp [Semidominators.start]
  · simp [Semidominators.start]
  · rw [nobody] at member
    cases member

/-- What remains to be settled is as many nodes as the least place of a settled one leaves. -/
theorem underway_foldl (spans : g.Spans root t)
    (symm : ∀ v w, v ∈ g.predecessors w ↔ w ∈ g.successors v) (later rest : List Nat)
    (split : t.met = later ++ rest ++ [root]) {s : Semidominators}
    (underway : g.Underway t (rest.length + 1) s) : g.Underway t 1 (rest.foldl (settle g t) s) := by
  induction rest generalizing later s with
  | nil => exact underway
  | cons w rest ih =>
    have cut : t.met = later ++ w :: (rest ++ [root]) := by simp [split]
    have place := spans.placed later w _ cut
    have not_root : w ≠ root := by
      rintro rfl
      have distinct := spans.distinct
      rw [cut] at distinct
      simp [List.nodup_append] at distinct
    obtain ⟨p, link⟩ := spans.above w (by simp [cut]) not_root
    refine ih (later ++ [w]) (by simp [split]) (underway.settle spans link ?_ symm)
    simpa using place

/-! Conclusions. -/

section Conclude

variable (spans : g.Spans root t) (complete : ∀ v, v ∈ t.met ↔ g.Reached root v)
  (underway : g.Underway t 1 s)

include spans underway

theorem Underway.semidominator {v p : Nat} (link : t.above? v = some p) :
    g.IsSemidominator t v (s.semiOf v) := by
  obtain ⟨_, p_met, earlier, _⟩ := spans.edge v p link
  exact underway.semi v p link (Nat.lt_of_le_of_lt ((spans.met_iff p).mp p_met) earlier)

theorem Underway.answered {v p : Nat} (link : t.above? v = some p) :
    ∃ d, s.dominator? v = some d ∧ Promising t 1 s.semiOf v d := by
  have semi := underway.semidominator spans link
  obtain ⟨_, p_met, earlier, _⟩ := spans.edge v p link
  refine (underway.found v (Nat.lt_of_le_of_lt ((spans.met_iff p).mp p_met) earlier)).resolve_left
    fun waits => ?_
  have other : s.semiOf v ≠ v := fun same => by
    have := semi.lt spans link
    rw [same] at this
    exact Nat.lt_irrefl _ this
  obtain ⟨c, c_link, c_over⟩ := (semi.is_over spans link).exists_child other
  have early := (underway.waits _ v waits).2.2 c c_link c_over
  obtain ⟨_, above_met, later, _⟩ := spans.edge c _ c_link
  have := (spans.met_iff _).mp above_met
  omega

omit underway in
theorem Spans.mem_of_over {later rest : List Nat} {w d : Nat}
    (split : t.met = later ++ w :: (rest ++ [root])) (is_over : t.Over d w) (other : d ≠ w)
    (not_root : d ≠ root) : d ∈ rest := by
  have sorted := spans.sorted
  have w_met : w ∈ t.met := by simp [split]
  have d_met := spans.met_of_over is_over w_met
  have d_earlier := spans.placeOf_lt is_over other
  rw [split] at sorted d_met
  rcases List.mem_append.mp d_met with late | early
  · have := (List.pairwise_append.mp sorted).2.2 d late w (by simp)
    omega
  · simpa [other, not_root] using early

/-- What is known once the nodes in `done` have their dominators. -/
structure Concluded (g : Digraph) (root : Nat) (s₀ : Semidominators) (done : List Nat)
    (s : Semidominators) : Prop where
  semi : s.semi = s₀.semi
  size : s.dominator.size = s₀.dominator.size
  kept : ∀ v, v ∉ done → s.dominator? v = s₀.dominator? v
  closest : ∀ v ∈ done, ∃ d, s.dominator? v = some d ∧ g.Closest root d v

include complete

/-- The answer of a node becomes its closest dominator once all nodes above have theirs. -/
theorem Concluded.step {done : List Nat} {s₁ : Semidominators} (concluded : g.Concluded root s done s₁)
    {w p : Nat} (link : t.above? w = some p) (w_new : w ∉ done)
    (uppers : ∀ d, t.Over d w → d ≠ w → d ≠ root → d ∈ done) :
    g.Concluded root s (w :: done) (conclude w s₁) := by
  obtain ⟨w_met, _⟩ := spans.edge w p link
  obtain ⟨d, found, promising⟩ := underway.answered spans link
  have semi (y q : Nat) (y_link : t.above? y = some q) := underway.semidominator spans y_link
  have found₁ : s₁.dominator? w = some d := (concluded.kept w w_new).trans found
  have semi_w : s₁.semiOf w = s.semiOf w := by rw [semiOf, semiOf, concluded.semi]
  simp only [conclude, found₁, semi_w]
  rcases promising.answer with ⟨rfl, least⟩ | ⟨is_over, below, before, least⟩
  · rw [if_pos rfl]
    refine ⟨concluded.semi, concluded.size, fun v unseen => ?_, fun v member => ?_⟩
    · exact concluded.kept v fun old => unseen (List.mem_cons_of_mem _ old)
    · rcases List.mem_cons.mp member with rfl | old
      · exact ⟨_, found₁, closest_of_least spans complete semi link least⟩
      · exact concluded.closest v old
  · have other : d ≠ s.semiOf w := by
      rintro rfl
      exact Nat.lt_irrefl _ below
    have d_other : d ≠ w := by
      rintro rfl
      exact Nat.lt_irrefl _ before
    have not_root : d ≠ root := by
      rintro rfl
      exact absurd below (Nat.not_lt.mpr (spans.placeOf_root_le (semi w p link).high.met))
    obtain ⟨e, d_found, d_closest⟩ := concluded.closest d (uppers d is_over d_other not_root)
    have inside : w < s₁.dominator.size := by
      rw [concluded.size, underway.sizes.2]
      exact spans.inside w_met
    rw [if_neg other, d_found]
    have set := s₁.dominator?_set (some e) inside
    have same_dominators := strictlyDominates_congr spans complete semi link is_over below before least
    refine ⟨concluded.semi, by simpa using concluded.size, fun v unseen => ?_, fun v member => ?_⟩
    · rw [set, if_neg fun here : v = w => unseen (here ▸ List.mem_cons_self)]
      exact concluded.kept v fun old => unseen (List.mem_cons_of_mem _ old)
    · rw [set]
      by_cases here : v = w
      · rw [if_pos here, here]
        exact ⟨e, rfl, (same_dominators e).mp d_closest.dominates,
          fun a dom => d_closest.closest a ((same_dominators a).mpr dom)⟩
      · rw [if_neg here]
        exact concluded.closest v ((List.mem_cons.mp member).resolve_left here)

/-- Starting from the earliest node, every answer becomes the closest dominator. -/
theorem concluded_foldr (later rest : List Nat) (split : t.met = later ++ rest ++ [root]) :
    g.Concluded root s rest (rest.foldr conclude s) := by
  induction rest generalizing later with
  | nil => exact ⟨rfl, rfl, fun _ _ => rfl, fun v none => by cases none⟩
  | cons w rest ih =>
    have cut : t.met = later ++ w :: (rest ++ [root]) := by simp [split]
    have distinct := spans.distinct
    rw [cut] at distinct
    have apart := (List.nodup_cons.mp (List.nodup_append.mp distinct).2.1).1
    simp only [List.mem_append, List.mem_singleton, not_or] at apart
    obtain ⟨p, link⟩ := spans.above w (by simp [cut]) apart.2
    exact (ih (later ++ [w]) (by simp [split])).step spans complete underway link apart.1
      fun d is_over other not_root => spans.mem_of_over cut is_over other not_root

end Conclude

/-- The dominators found are the closest ones, and nodes that are not reached have none. -/
theorem semidominators_spec (spans : g.Spans root t) (complete : ∀ v, v ∈ t.met ↔ g.Reached root v)
    (symm : ∀ v w, v ∈ g.predecessors w ↔ w ∈ g.successors v) :
    (g.semidominators t).dominator.size = g.size ∧
      (∀ v ∈ t.met, v ≠ root → ∃ d, (g.semidominators t).dominator? v = some d ∧ g.Closest root d v) ∧
      ∀ v d, (g.semidominators t).dominator? v = some d → v ∈ t.met ∧ v ≠ root := by
  obtain ⟨others, split⟩ := spans.rooted
  have start := underway_start spans
  rw [split, List.length_append] at start
  have underway := underway_foldl spans symm [] others (by simpa using split) start
  obtain ⟨_, size, kept, closest⟩ :=
    concluded_foldr spans complete underway [] others (by simpa using split)
  have unfold_eq : g.semidominators t =
      others.foldr conclude (others.foldl (settle g t) (.start g.size)) := by
    simp [semidominators, split]
  rw [unfold_eq]
  refine ⟨size.trans underway.sizes.2, fun v member other => closest v ?_, fun v d found => ?_⟩
  · rw [split] at member
    simpa [other] using member
  · by_cases seen : v ∈ others
    · have distinct := spans.distinct
      rw [split] at distinct
      refine ⟨by simp [split, seen], ?_⟩
      rintro rfl
      exact (List.nodup_append.mp distinct).2.2 v seen v (by simp) rfl
    · rw [kept v seen, underway.unfound v] at found
      · cases found
      · by_cases member : v ∈ t.met
        · have is_root : v = root := by
            rw [split] at member
            simpa [seen] using member
          rw [is_root, spans.placed others root [] split]
          rfl
        · rw [spans.met_iff] at member
          omega

end Digraph

end ScriptFlow
