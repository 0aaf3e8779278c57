import Mathlib.Data.List.Pairwise
import Mathlib.Data.List.TakeWhile
import ScriptFlow.Proofs.Digraph.Dominance

/-! What a depth-first search leaves behind: a tree over the reached nodes in which the nodes below
any one of them are met without a break, and in which edges to later nodes lead downwards. -/

namespace ScriptFlow

namespace SpanningTree

/-- The node `a` is `v` or stands above it. -/
inductive Over (t : SpanningTree) (a : Nat) : Nat → Prop where
  | self : t.Over a a
  | child {p v : Nat} : t.Over a p → t.above? v = some p → t.Over a v

namespace Over

variable {t t' : SpanningTree} {a b v : Nat}

theorem trans (upper : t.Over a b) (lower : t.Over b v) : t.Over a v := by
  induction lower with
  | self => exact upper
  | child _ link ih => exact .child ih link

theorem mono (kept : ∀ v p, t.above? v = some p → t'.above? v = some p) (is_over : t.Over a v) :
    t'.Over a v := by
  induction is_over with
  | self => exact .self
  | child _ link ih => exact .child ih (kept _ _ link)

/-- The nodes above one node stand above one another. -/
theorem linear (first : t.Over a v) (second : t.Over b v) : t.Over a b ∨ t.Over b a := by
  induction first with
  | self => exact .inr second
  | @child p v above link ih =>
    cases second with
    | self => exact .inl (.child above link)
    | child above' link' =>
      obtain rfl := Option.some.inj (link.symm.trans link')
      exact ih above'

theorem of_above {p : Nat} (is_over : t.Over a v) (other : a ≠ v) (link : t.above? v = some p) :
    t.Over a p := by
  cases is_over with
  | self => exact absurd rfl other
  | child above link' =>
    obtain rfl := Option.some.inj (link.symm.trans link')
    exact above

theorem exists_child (is_over : t.Over a v) (other : a ≠ v) :
    ∃ c, t.above? c = some a ∧ t.Over c v := by
  induction is_over with
  | self => exact absurd rfl other
  | @child p v above link ih =>
    by_cases here : a = p
    · exact ⟨v, here ▸ link, .self⟩
    · obtain ⟨c, up, down⟩ := ih here
      exact ⟨c, up, .child down link⟩

end Over

/-! One node more. -/

variable (t : SpanningTree) (v w : Nat) (above : Option Nat)

theorem placeOf_meet (inside : v < t.place.size) :
    (t.meet v above).placeOf w = if w = v then t.met.length + 1 else t.placeOf w := by
  simp only [meet, placeOf, Array.getD_eq_getD_getElem?, Array.getElem?_setIfInBounds]
  grind

theorem above?_meet (inside : v < t.above.size) :
    (t.meet v above).above? w = if w = v then above else t.above? w := by
  simp only [meet, above?, Array.getD_eq_getD_getElem?, Array.getElem?_setIfInBounds]
  grind

theorem isFresh_iff : t.isFresh v = true ↔ v < t.place.size ∧ t.placeOf v = 0 := by
  simp only [isFresh, placeOf, Array.getD_eq_getD_getElem?]
  grind

end SpanningTree

namespace Digraph

variable {g : Digraph} {root : Nat} {t : SpanningTree}

/-- The tree spans the nodes met so far. -/
structure Spans (g : Digraph) (root : Nat) (t : SpanningTree) : Prop where
  sizes : t.place.size = g.size ∧ t.above.size = g.size
  rooted : ∃ others, t.met = others ++ [root]
  placed : ∀ later v earlier, t.met = later ++ v :: earlier → t.placeOf v = earlier.length + 1
  /-- Later nodes have greater places. -/
  sorted : t.met.Pairwise fun v w => t.placeOf w < t.placeOf v
  met_iff : ∀ v, v ∈ t.met ↔ 0 < t.placeOf v
  bound : ∀ v, t.placeOf v ≤ t.met.length
  edge : ∀ v p, t.above? v = some p →
    v ∈ t.met ∧ p ∈ t.met ∧ t.placeOf p < t.placeOf v ∧ v ∈ g.successors p
  above_root : t.above? root = none
  above : ∀ v ∈ t.met, v ≠ root → ∃ p, t.above? v = some p
  /-- The nodes below a node are met without a break. -/
  convex : ∀ a x y, t.Over a y → x ∈ t.met → t.placeOf a ≤ t.placeOf x →
    t.placeOf x ≤ t.placeOf y → t.Over a x
  /-- An edge to a later node leads downwards. -/
  forward : ∀ v w, v ∈ t.met → w ∈ t.met → w ∈ g.successors v → t.placeOf v < t.placeOf w →
    t.Over v w

namespace Spans

variable (spans : g.Spans root t)

include spans

theorem inside {v : Nat} (member : v ∈ t.met) : v < g.size := by
  by_contra outside
  have place := (spans.met_iff v).mp member
  rw [SpanningTree.placeOf, Array.getD_eq_getD_getElem?,
    Array.getElem?_eq_none (by rw [spans.sizes.1]; exact Nat.le_of_not_lt outside)] at place
  simp at place

theorem isFresh_iff {v : Nat} : t.isFresh v = true ↔ v < g.size ∧ v ∉ t.met := by
  rw [t.isFresh_iff, spans.sizes.1, spans.met_iff]
  omega

theorem root_met : root ∈ t.met := by
  obtain ⟨others, split⟩ := spans.rooted
  rw [split]
  simp

theorem placeOf_inj {v w : Nat} (v_met : v ∈ t.met) (w_met : w ∈ t.met)
    (same : t.placeOf v = t.placeOf w) : v = w := by
  by_contra other
  have apart : t.met.Pairwise fun v w => t.placeOf v ≠ t.placeOf w :=
    spans.sorted.imp fun lt => Nat.ne_of_gt lt
  have : Std.Symm fun v w => t.placeOf v ≠ t.placeOf w := ⟨fun _ _ => Ne.symm⟩
  exact apart.forall v_met w_met other same

theorem distinct : t.met.Nodup := spans.sorted.imp fun {v w} lt same => by
  rw [same] at lt
  exact Nat.lt_irrefl _ lt

theorem placeOf_root_le {v : Nat} (member : v ∈ t.met) : t.placeOf root ≤ t.placeOf v := by
  obtain ⟨others, split⟩ := spans.rooted
  have sorted := spans.sorted
  rw [split] at sorted member
  rcases List.mem_append.mp member with other | last
  · exact Nat.le_of_lt ((List.pairwise_append.mp sorted).2.2 v other root (by simp))
  · rw [List.mem_singleton.mp last]

theorem met_of_over {a v : Nat} (is_over : t.Over a v) (member : v ∈ t.met) : a ∈ t.met := by
  induction is_over with
  | self => exact member
  | child _ link ih => exact ih (spans.edge _ _ link).2.1

theorem placeOf_le {a v : Nat} (is_over : t.Over a v) : t.placeOf a ≤ t.placeOf v := by
  induction is_over with
  | self => exact Nat.le_refl _
  | child _ link ih => exact Nat.le_trans ih (Nat.le_of_lt (spans.edge _ _ link).2.2.1)

theorem placeOf_lt {a v : Nat} (is_over : t.Over a v) (other : a ≠ v) : t.placeOf a < t.placeOf v := by
  cases is_over with
  | self => exact absurd rfl other
  | child above link => exact Nat.lt_of_le_of_lt (spans.placeOf_le above) (spans.edge _ _ link).2.2.1

/-- Of two nodes above a node, the earlier one stands above the other. -/
theorem over_of_le {a b v : Nat} (first : t.Over a v) (second : t.Over b v)
    (le : t.placeOf a ≤ t.placeOf b) : t.Over a b := by
  rcases first.linear second with above | below
  · exact above
  · by_cases same : b = a
    · rw [same]
      exact .self
    · have := spans.placeOf_lt below same
      omega

theorem root_over {v : Nat} (member : v ∈ t.met) : t.Over root v := by
  induction place : t.placeOf v using Nat.strong_induction_on generalizing v with
  | _ n ih =>
    by_cases is_root : v = root
    · rw [is_root]
      exact .self
    · obtain ⟨p, link⟩ := spans.above v member is_root
      obtain ⟨_, p_met, earlier, _⟩ := spans.edge v p link
      exact .child (ih _ (place ▸ earlier) p_met rfl) link

theorem length_le : t.met.length ≤ g.size := by
  rw [← List.toFinset_card_of_nodup spans.distinct, ← Finset.card_range g.size]
  exact Finset.card_le_card fun v member =>
    Finset.mem_range.mpr (spans.inside (List.mem_toFinset.mp member))

/-- A tree with as many nodes as the graph has no fresh ones. -/
theorem not_fresh_of_full (full : g.size ≤ t.met.length) (v : Nat) : t.isFresh v = false := by
  by_contra fresh
  obtain ⟨v_inside, unmet⟩ := spans.isFresh_iff.mp (by simpa using fresh)
  have all : t.met.toFinset = Finset.range g.size := by
    refine Finset.eq_of_subset_of_card_le (fun w member =>
      Finset.mem_range.mpr (spans.inside (List.mem_toFinset.mp member))) ?_
    rwa [List.toFinset_card_of_nodup spans.distinct, Finset.card_range]
  exact unmet (List.mem_toFinset.mp (all ▸ Finset.mem_range.mpr v_inside))

end Spans

/-- A tree that is being built, with the edges that are still to be followed. -/
structure Growing (g : Digraph) (root : Nat) (stack : List (Nat × Nat)) (t : SpanningTree) : Prop
    extends Spans g root t where
  /-- Edges lead on from the nodes above the latest one. -/
  latest : ∀ e ∈ stack, ∀ c ∈ t.met.head?, t.Over e.1 c
  /-- Those from lower nodes come first. -/
  nested : stack.Pairwise fun e e' => t.Over e'.1 e.1
  stacked : ∀ e ∈ stack, e.2 ∈ g.successors e.1
  pending : ∀ v ∈ t.met, ∀ w ∈ g.successors v, t.isFresh w = true → (v, w) ∈ stack

theorem Growing.dropWhile {stack : List (Nat × Nat)} (growing : g.Growing root stack t) :
    g.Growing root (stack.dropWhile fun e => !t.isFresh e.2) t := by
  have sub : (stack.dropWhile fun e => !t.isFresh e.2).Sublist stack := List.dropWhile_sublist _
  refine { growing with
    latest := fun e member => growing.latest e (sub.subset member)
    nested := growing.nested.sublist sub
    stacked := fun e member => growing.stacked e (sub.subset member)
    pending := fun v met w next fresh => ?_ }
  have member := growing.pending v met w next fresh
  rw [← List.takeWhile_append_dropWhile (p := fun e => !t.isFresh e.2) (l := stack)] at member
  refine (List.mem_append.mp member).resolve_left fun skipped => ?_
  have stale := List.mem_takeWhile_imp skipped
  simp [fresh] at stale

/-! Following an edge. -/

section Meet

variable {v w : Nat} {stack : List (Nat × Nat)} (growing : g.Growing root ((v, w) :: stack) t)
  (fresh : t.isFresh w = true)

include growing

/-- The latest node, below all nodes from which edges are to be followed. -/
theorem Growing.exists_latest : ∃ c ∈ t.met, t.Over v c ∧ ∀ x ∈ t.met, t.placeOf x ≤ t.placeOf c := by
  cases met : t.met with
  | nil =>
    have member := growing.root_met
    rw [met] at member
    cases member
  | cons c rest =>
    refine ⟨c, by simp, growing.latest (v, w) (by simp) c (by simp [met]), fun x member => ?_⟩
    rcases List.mem_cons.mp member with rfl | later
    · exact Nat.le_refl _
    · have sorted := growing.sorted
      rw [met] at sorted
      exact Nat.le_of_lt ((List.pairwise_cons.mp sorted).1 x later)

theorem Growing.source_met : v ∈ t.met := by
  obtain ⟨c, c_met, is_over, _⟩ := growing.exists_latest
  exact growing.met_of_over is_over c_met

include fresh

theorem Growing.placeOf_meet (x : Nat) : (t.meet w (some v)).placeOf x =
    if x = w then t.met.length + 1 else t.placeOf x :=
  t.placeOf_meet w x _ (by rw [growing.sizes.1]; exact (growing.isFresh_iff.mp fresh).1)

theorem Growing.above?_meet (x : Nat) : (t.meet w (some v)).above? x =
    if x = w then some v else t.above? x :=
  t.above?_meet w x _ (by rw [growing.sizes.2]; exact (growing.isFresh_iff.mp fresh).1)

theorem Growing.over_meet {a x : Nat} (is_over : t.Over a x) : (t.meet w (some v)).Over a x := by
  refine is_over.mono fun y p link => ?_
  rw [growing.above?_meet fresh, if_neg, link]
  rintro rfl
  exact (growing.isFresh_iff.mp fresh).2 (growing.edge _ _ link).1

theorem Growing.over_of_meet {a x : Nat} (is_over : (t.meet w (some v)).Over a x) :
    x = w ∧ (a = w ∨ t.Over a v) ∨ x ≠ w ∧ t.Over a x := by
  induction is_over with
  | self =>
    by_cases new : a = w
    · exact .inl ⟨new, .inl new⟩
    · exact .inr ⟨new, .self⟩
  | @child p x above link ih =>
    have unmet := (growing.isFresh_iff.mp fresh).2
    rw [growing.above?_meet fresh] at link
    split at link
    · rename_i new
      obtain rfl := Option.some.inj link
      rcases ih with ⟨rfl, _⟩ | ⟨_, is_over⟩
      · exact absurd growing.source_met unmet
      · exact .inl ⟨new, .inr is_over⟩
    · rename_i old
      rcases ih with ⟨rfl, _⟩ | ⟨_, is_over⟩
      · exact absurd (growing.edge _ _ link).2.1 unmet
      · exact .inr ⟨old, .child is_over link⟩

theorem Growing.convex_meet (a x y : Nat) (is_over : (t.meet w (some v)).Over a y)
    (x_met : x ∈ (t.meet w (some v)).met)
    (a_le : (t.meet w (some v)).placeOf a ≤ (t.meet w (some v)).placeOf x)
    (x_le : (t.meet w (some v)).placeOf x ≤ (t.meet w (some v)).placeOf y) :
    (t.meet w (some v)).Over a x := by
  have new_last (x : Nat) : t.placeOf x < t.met.length + 1 := Nat.lt_succ_of_le (growing.bound x)
  simp only [growing.placeOf_meet fresh] at a_le x_le
  rcases growing.over_of_meet fresh is_over with ⟨rfl, rfl | above⟩ | ⟨old, above⟩
  · have := new_last x
    by_cases same : x = a
    · rw [same]
      exact .self
    · rw [if_pos rfl, if_neg same] at a_le
      omega
  · by_cases same : x = y
    · rw [same]
      exact is_over
    · have x_old : x ∈ t.met := (List.mem_cons.mp x_met).resolve_left same
      have a_old : a ≠ y := by
        rintro rfl
        exact (growing.isFresh_iff.mp fresh).2 (growing.met_of_over above growing.source_met)
      rw [if_neg a_old, if_neg same] at a_le
      obtain ⟨c, _, v_over, latest⟩ := growing.exists_latest
      exact growing.over_meet fresh
        (growing.convex a x c (above.trans v_over) x_old a_le (latest x x_old))
  · have same : x ≠ w := by
      rintro rfl
      have := new_last y
      rw [if_pos rfl, if_neg old] at x_le
      omega
    have x_old : x ∈ t.met := (List.mem_cons.mp x_met).resolve_left same
    rw [if_neg same, if_neg old] at x_le
    have a_old : a ≠ w := by
      rintro rfl
      have := new_last x
      rw [if_pos rfl, if_neg same] at a_le
      omega
    rw [if_neg a_old, if_neg same] at a_le
    exact growing.over_meet fresh (growing.convex a x y above x_old a_le x_le)

theorem Growing.forward_meet (x y : Nat) (x_met : x ∈ (t.meet w (some v)).met)
    (y_met : y ∈ (t.meet w (some v)).met) (next : y ∈ g.successors x)
    (later : (t.meet w (some v)).placeOf x < (t.meet w (some v)).placeOf y) :
    (t.meet w (some v)).Over x y := by
  have new_last (x : Nat) : t.placeOf x < t.met.length + 1 := Nat.lt_succ_of_le (growing.bound x)
  simp only [growing.placeOf_meet fresh] at later
  have x_old : x ≠ w := by
    rintro rfl
    have := new_last y
    rw [if_pos rfl] at later
    split at later <;> omega
  have x_before : x ∈ t.met := (List.mem_cons.mp x_met).resolve_left x_old
  by_cases new : y = w
  · subst new
    -- the edge has waited on the stack, so it leads on from a node above `v`
    have is_over : t.Over x v := by
      rcases List.mem_cons.mp (growing.pending x x_before y next fresh) with same | waiting
      · rw [(Prod.mk.inj same).1]
        exact .self
      · exact (List.pairwise_cons.mp growing.nested).1 _ waiting
    exact .child (growing.over_meet fresh is_over) (by rw [growing.above?_meet fresh, if_pos rfl])
  · rw [if_neg x_old, if_neg new] at later
    exact growing.over_meet fresh
      (growing.forward x y x_before ((List.mem_cons.mp y_met).resolve_left new) next later)

theorem Growing.spans_meet : g.Spans root (t.meet w (some v)) := by
  obtain ⟨w_inside, unmet⟩ := growing.isFresh_iff.mp fresh
  have old {x : Nat} (member : x ∈ t.met) : x ≠ w := fun same => unmet (same ▸ member)
  have place {x : Nat} (member : x ∈ t.met) : (t.meet w (some v)).placeOf x = t.placeOf x := by
    rw [growing.placeOf_meet fresh, if_neg (old member)]
  have place_w : (t.meet w (some v)).placeOf w = t.met.length + 1 := by
    rw [growing.placeOf_meet fresh, if_pos rfl]
  obtain ⟨others, split⟩ := growing.rooted
  refine ⟨by simpa [SpanningTree.meet] using growing.sizes,
    ⟨w :: others, by simp [SpanningTree.meet, split]⟩,
    ?_, ?_, ?_, ?_, ?_, ?_, ?_, growing.convex_meet fresh, growing.forward_meet fresh⟩
  · intro later x earlier cut
    cases later with
    | nil =>
      obtain ⟨rfl, rfl⟩ := List.cons.inj cut
      exact place_w
    | cons y later =>
      have inner : t.met = later ++ x :: earlier := (List.cons.inj cut).2
      rw [place (by simp [inner]), growing.placed later x earlier inner]
  · refine List.pairwise_cons.mpr ⟨fun x member => ?_, ?_⟩
    · rw [place member, place_w]
      exact Nat.lt_succ_of_le (growing.bound x)
    · refine growing.sorted.imp_of_mem fun {x y} x_met y_met lt => ?_
      rwa [place x_met, place y_met]
  · intro x
    rw [growing.placeOf_meet fresh]
    simp only [SpanningTree.meet, List.mem_cons, growing.met_iff]
    grind
  · intro x
    rw [growing.placeOf_meet fresh]
    have := growing.bound x
    simp only [SpanningTree.meet, List.length_cons]
    split <;> omega
  · intro x p link
    rw [growing.above?_meet fresh] at link
    split at link
    · rename_i new
      obtain rfl := Option.some.inj link
      refine ⟨by simp [SpanningTree.meet, new], List.mem_cons_of_mem _ growing.source_met, ?_, ?_⟩
      · rw [new, place growing.source_met, place_w]
        exact Nat.lt_succ_of_le (growing.bound v)
      · rw [new]
        exact growing.stacked _ List.mem_cons_self
    · obtain ⟨x_met, p_met, lt, edge⟩ := growing.edge x p link
      refine ⟨List.mem_cons_of_mem _ x_met, List.mem_cons_of_mem _ p_met, ?_, edge⟩
      rwa [place x_met, place p_met]
  · rw [growing.above?_meet fresh, if_neg (old growing.root_met)]
    exact growing.above_root
  · intro x member other
    rw [growing.above?_meet fresh]
    rcases List.mem_cons.mp member with rfl | x_met
    · exact ⟨v, if_pos rfl⟩
    · rw [if_neg (old x_met)]
      exact growing.above x x_met other

theorem Growing.meet :
    g.Growing root (g.openEdges (t.meet w (some v)) w ++ stack) (t.meet w (some v)) := by
  have spans := growing.spans_meet fresh
  have up : (t.meet w (some v)).above? w = some v := by
    rw [growing.above?_meet fresh, if_pos rfl]
  have lower (e : Nat × Nat) (member : e ∈ stack) : (t.meet w (some v)).Over e.1 w :=
    .child (growing.over_meet fresh ((List.pairwise_cons.mp growing.nested).1 e member)) up
  have opened (e : Nat × Nat) (member : e ∈ g.openEdges (t.meet w (some v)) w) :
      e.1 = w ∧ e.2 ∈ g.successors w := by
    obtain ⟨x, next, rfl⟩ := List.mem_map.mp member
    exact ⟨rfl, (List.mem_filter.mp next).1⟩
  refine { spans with latest := ?_, nested := ?_, stacked := ?_, pending := ?_ }
  · intro e member c head
    obtain rfl : w = c := by simpa [SpanningTree.meet] using head
    rcases List.mem_append.mp member with new | waiting
    · rw [(opened e new).1]
      exact .self
    · exact lower e waiting
  · refine List.pairwise_append.mpr ⟨?_, ?_, fun e new e' waiting => ?_⟩
    · refine List.pairwise_of_forall_mem_list fun e new e' new' => ?_
      rw [(opened e new).1, (opened e' new').1]
      exact .self
    · exact (List.pairwise_cons.mp growing.nested).2.imp fun is_over => growing.over_meet fresh is_over
    · rw [(opened e new).1]
      exact lower e' waiting
  · intro e member
    rcases List.mem_append.mp member with new | waiting
    · rw [(opened e new).1]
      exact (opened e new).2
    · exact growing.stacked e (List.mem_cons_of_mem _ waiting)
  · intro x member y next still_fresh
    rcases List.mem_cons.mp member with rfl | x_met
    · exact List.mem_append_left _
        (List.mem_map.mpr ⟨y, List.mem_filter.mpr ⟨next, still_fresh⟩, rfl⟩)
    · obtain ⟨y_inside, y_unmet⟩ := spans.isFresh_iff.mp still_fresh
      have y_other : y ≠ w := fun same => y_unmet (by simp [SpanningTree.meet, same])
      have y_fresh : t.isFresh y = true :=
        growing.isFresh_iff.mpr ⟨y_inside, fun y_met => y_unmet (List.mem_cons_of_mem _ y_met)⟩
      rcases List.mem_cons.mp (growing.pending x x_met y next y_fresh) with same | waiting
      · exact absurd (Prod.mk.inj same).2 y_other
      · exact List.mem_append_right _ waiting

end Meet

/-! A whole search. -/

/-- Once no edge leads to a fresh node, the tree is complete. -/
theorem spanFrom_spec (fuel : Nat) (stack : List (Nat × Nat)) (t : SpanningTree)
    (growing : g.Growing root stack t) (enough : g.size ≤ t.met.length + fuel) :
    g.Spans root (g.spanFrom fuel stack t) ∧
      ∀ v ∈ (g.spanFrom fuel stack t).met, ∀ w ∈ g.successors v, w < g.size →
        w ∈ (g.spanFrom fuel stack t).met := by
  induction fuel generalizing stack t with
  | zero =>
    refine ⟨growing.toSpans, fun v member w next inside => ?_⟩
    by_contra unmet
    have fresh := growing.isFresh_iff.mpr ⟨inside, unmet⟩
    simp [growing.not_fresh_of_full enough] at fresh
  | succ fuel ih =>
    unfold spanFrom
    have dropped := growing.dropWhile
    split
    · rename_i none_left
      rw [none_left] at dropped
      refine ⟨growing.toSpans, fun v member w next inside => ?_⟩
      by_contra unmet
      cases dropped.pending v member w next (growing.isFresh_iff.mpr ⟨inside, unmet⟩)
    · rename_i v w rest first
      have fresh : t.isFresh w = true := by
        have head := List.head?_dropWhile_not (fun e : Nat × Nat => !t.isFresh e.2) stack
        rw [first] at head
        simpa using head
      rw [first] at dropped
      refine ih _ _ (dropped.meet fresh) ?_
      simp only [SpanningTree.meet, List.length_cons]
      omega

structure Alone (g : Digraph) (root : Nat) (t : SpanningTree) : Prop where
  sizes : t.place.size = g.size ∧ t.above.size = g.size
  met : t.met = [root]
  place : ∀ v, t.placeOf v = if v = root then 1 else 0
  above : ∀ v, t.above? v = none

theorem alone_start (inside : root < g.size) :
    g.Alone root ((SpanningTree.none g.size).meet root none) := by
  have none_met (v : Nat) : (SpanningTree.none g.size).placeOf v = 0 ∧
      (SpanningTree.none g.size).above? v = none := by
    simp only [SpanningTree.none, SpanningTree.placeOf, SpanningTree.above?,
      Array.getD_eq_getD_getElem?, Array.getElem?_replicate]
    grind
  refine ⟨by simp [SpanningTree.meet, SpanningTree.none], rfl, fun v => ?_, fun v => ?_⟩
  · rw [SpanningTree.placeOf_meet _ _ _ _ (by simpa [SpanningTree.none] using inside), (none_met v).1]
    rfl
  · rw [SpanningTree.above?_meet _ _ _ _ (by simpa [SpanningTree.none] using inside), (none_met v).2]
    exact ite_self _

namespace Alone

variable (alone : g.Alone root t)

include alone

theorem eq_root {v : Nat} (member : v ∈ t.met) : v = root := by simpa [alone.met] using member

theorem spans : g.Spans root t := by
  refine ⟨alone.sizes, ⟨[], alone.met⟩, ?_, ?_, ?_, ?_, ?_, alone.above root, ?_, ?_, ?_⟩
  · intro later v earlier cut
    obtain ⟨rfl, rfl, rfl⟩ : later = [] ∧ v = root ∧ earlier = [] := by
      rw [alone.met] at cut
      cases later <;> simp_all
    rw [alone.place, if_pos rfl]
    rfl
  · rw [alone.met]
    exact List.pairwise_singleton _ _
  · intro v
    rw [alone.met, alone.place]
    grind
  · intro v
    rw [alone.met, alone.place]
    split <;> simp
  · intro v p link
    rw [alone.above] at link
    cases link
  · intro v member other
    exact absurd (alone.eq_root member) other
  · intro a x y is_over member a_le x_le
    cases is_over with
    | self =>
      rw [alone.eq_root member] at a_le x_le ⊢
      rw [alone.place root, if_pos rfl, alone.place] at x_le
      split at x_le
      · rename_i same
        rw [same]
        exact .self
      · omega
    | child _ link =>
      rw [alone.above] at link
      cases link
  · intro v w v_met w_met _ lt
    rw [alone.eq_root v_met, alone.eq_root w_met] at lt
    exact absurd lt (Nat.lt_irrefl _)

theorem growing : g.Growing root (g.openEdges t root) t := by
  have opened {e : Nat × Nat} (member : e ∈ g.openEdges t root) :
      e.1 = root ∧ e.2 ∈ g.successors root := by
    obtain ⟨x, next, rfl⟩ := List.mem_map.mp member
    exact ⟨rfl, (List.mem_filter.mp next).1⟩
  refine ⟨alone.spans, ?_, ?_, ?_, ?_⟩
  · intro e member c head
    obtain rfl : root = c := by simpa [alone.met] using head
    rw [(opened member).1]
    exact .self
  · refine List.pairwise_of_forall_mem_list fun e member e' member' => ?_
    rw [(opened member).1, (opened member').1]
    exact .self
  · intro e member
    rw [(opened member).1]
    exact (opened member).2
  · intro v member w next fresh
    rw [alone.eq_root member] at next ⊢
    exact List.mem_map.mpr ⟨w, List.mem_filter.mpr ⟨next, fresh⟩, rfl⟩

end Alone

theorem spanningTree_spec (inside : root < g.size) :
    g.Spans root (g.spanningTree root) ∧
      ∀ v, v ∈ (g.spanningTree root).met ↔ g.Reached root v := by
  obtain ⟨spans, closed⟩ := spanFrom_spec g.size _ _ (alone_start inside).growing (by omega)
  refine ⟨spans, fun v => ⟨fun member => ?_, fun reached => ?_⟩⟩
  · have is_over := spans.root_over member
    clear member
    induction is_over with
    | self => exact .start inside
    | child _ link ih =>
      obtain ⟨met, _, _, edge⟩ := spans.edge _ _ link
      exact .step ih edge (spans.inside met)
  · induction reached with
    | start _ => exact spans.root_met
    | step _ edge h ih => exact closed _ ih _ edge h

end Digraph

end ScriptFlow
