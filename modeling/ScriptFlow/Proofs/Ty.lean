import Mathlib.Data.List.Basic
import ScriptFlow.Ty

/-! The order of type members is total, so a union holds each of its members once, at the one place
that is right for it. -/

namespace ScriptFlow

variable {a : Member} {t u : Ty}

/-! The order. -/

theorem orderNat_eq_iff {a b : Nat} : orderNat a b = .eq ↔ a = b := by
  unfold orderNat
  split
  · simp; omega
  · split
    · simp; omega
    · simp; omega

theorem orderNat_lt_iff {a b : Nat} : orderNat a b = .lt ↔ a < b := by
  unfold orderNat
  split
  · simpa
  · split <;> simp_all

theorem orderNat_swap (a b : Nat) : (orderNat a b).swap = orderNat b a := by
  unfold orderNat
  split
  · rename_i less
    simp [Nat.not_lt_of_lt less]
  · split <;> simp_all

theorem Variance.rank_inj {v w : Variance} : v.rank = w.rank ↔ v = w := by
  cases v <;> cases w <;> decide

mutual

theorem Ty.order_eq_iff : ∀ a b : Ty, a.order b = .eq ↔ a = b
  | .union as, .union bs => by simp [Ty.order, Member.orderAll_eq_iff as]

theorem Member.order_eq_iff : ∀ a b : Member, a.order b = .eq ↔ a = b
  | .cls m v, b => by
    cases b <;> simp [Member.order, Ordering.then_eq_eq, orderNat_eq_iff, Variance.rank_inj]
  | .tuple as, b => by cases b <;> simp [Member.order, Ty.orderAll_eq_iff as]

theorem Member.orderAll_eq_iff : ∀ as bs : List Member, Member.orderAll as bs = .eq ↔ as = bs
  | [], bs => by cases bs <;> simp [Member.orderAll]
  | a :: as, bs => by
    cases bs <;>
      simp [Member.orderAll, Ordering.then_eq_eq, Member.order_eq_iff a, Member.orderAll_eq_iff as]

theorem Ty.orderAll_eq_iff : ∀ as bs : List Ty, Ty.orderAll as bs = .eq ↔ as = bs
  | [], bs => by cases bs <;> simp [Ty.orderAll]
  | a :: as, bs => by
    cases bs <;>
      simp [Ty.orderAll, Ordering.then_eq_eq, Ty.order_eq_iff a, Ty.orderAll_eq_iff as]

end

mutual

theorem Ty.order_swap : ∀ a b : Ty, (a.order b).swap = b.order a
  | .union as, .union bs => by simp [Ty.order, Member.orderAll_swap as]

theorem Member.order_swap : ∀ a b : Member, (a.order b).swap = b.order a
  | .cls m v, b => by
    cases b <;> simp [Member.order, Ordering.swap_then, orderNat_swap]
  | .tuple as, b => by cases b <;> simp [Member.order, Ty.orderAll_swap as]

theorem Member.orderAll_swap : ∀ as bs : List Member,
    (Member.orderAll as bs).swap = Member.orderAll bs as
  | [], bs => by cases bs <;> simp [Member.orderAll]
  | a :: as, bs => by
    cases bs <;>
      simp [Member.orderAll, Ordering.swap_then, Member.order_swap a, Member.orderAll_swap as]

theorem Ty.orderAll_swap : ∀ as bs : List Ty, (Ty.orderAll as bs).swap = Ty.orderAll bs as
  | [], bs => by cases bs <;> simp [Ty.orderAll]
  | a :: as, bs => by
    cases bs <;> simp [Ty.orderAll, Ordering.swap_then, Ty.order_swap a, Ty.orderAll_swap as]

end

/-- Lexicographic comparison is transitive when both of its parts are. -/
theorem then_lt_trans {x y z x' y' z' : Ordering} (first : x = .lt → y = .lt → z = .lt)
    (left : x = .eq → z = y) (right : y = .eq → z = x) (second : x' = .lt → y' = .lt → z' = .lt)
    (before : x.then x' = .lt) (after : y.then y' = .lt) : z.then z' = .lt := by
  rw [Ordering.then_eq_lt] at *
  rcases before with less | ⟨same, less⟩
  · rcases after with less' | ⟨same', less'⟩
    · exact .inl (first less less')
    · exact .inl ((right same').trans less)
  · rcases after with less' | ⟨same', less'⟩
    · exact .inl ((left same).trans less')
    · exact .inr ⟨(left same).trans same', second less less'⟩

mutual

theorem Ty.order_trans : ∀ a b c : Ty, a.order b = .lt → b.order c = .lt → a.order c = .lt
  | .union as, .union bs, .union cs => by
    simpa only [Ty.order] using Member.orderAll_trans as bs cs

theorem Member.order_trans : ∀ a b c : Member,
    a.order b = .lt → b.order c = .lt → a.order c = .lt
  | .cls m v, b, c => by
    cases b with
    | cls n w =>
      cases c with
      | cls k x =>
        simp only [Member.order]
        refine then_lt_trans ?_ ?_ ?_ ?_
        · simp only [orderNat_lt_iff]; omega
        · intro same; rw [orderNat_eq_iff.mp same]
        · intro same; rw [orderNat_eq_iff.mp same]
        · simp only [orderNat_lt_iff]; omega
      | tuple cs => simp [Member.order]
    | tuple bs =>
      cases c with
      | cls k x =>
        intro _ after
        cases after
      | tuple cs => simp [Member.order]
  | .tuple as, b, c => by
    cases b with
    | cls n w =>
      intro before
      cases before
    | tuple bs =>
      cases c with
      | cls k x =>
        intro _ after
        cases after
      | tuple cs => simpa only [Member.order] using Ty.orderAll_trans as bs cs

theorem Member.orderAll_trans : ∀ as bs cs : List Member,
    Member.orderAll as bs = .lt → Member.orderAll bs cs = .lt → Member.orderAll as cs = .lt
  | [], bs, cs => by cases bs <;> cases cs <;> simp [Member.orderAll]
  | a :: as, bs, cs => by
    cases bs with
    | nil => simp [Member.orderAll]
    | cons b bs =>
      cases cs with
      | nil => simp [Member.orderAll]
      | cons c cs =>
        simp only [Member.orderAll]
        refine then_lt_trans (Member.order_trans a b c) ?_ ?_ (Member.orderAll_trans as bs cs)
        · intro same; rw [(Member.order_eq_iff a b).mp same]
        · intro same; rw [(Member.order_eq_iff b c).mp same]

theorem Ty.orderAll_trans : ∀ as bs cs : List Ty,
    Ty.orderAll as bs = .lt → Ty.orderAll bs cs = .lt → Ty.orderAll as cs = .lt
  | [], bs, cs => by cases bs <;> cases cs <;> simp [Ty.orderAll]
  | a :: as, bs, cs => by
    cases bs with
    | nil => simp [Ty.orderAll]
    | cons b bs =>
      cases cs with
      | nil => simp [Ty.orderAll]
      | cons c cs =>
        simp only [Ty.orderAll]
        refine then_lt_trans (Ty.order_trans a b c) ?_ ?_ (Ty.orderAll_trans as bs cs)
        · intro same; rw [(Ty.order_eq_iff a b).mp same]
        · intro same; rw [(Ty.order_eq_iff b c).mp same]

end

/-! Members. -/

@[simp] theorem Member.mem_insert {m : Member} {ms : List Member} :
    a ∈ Member.insert m ms ↔ a = m ∨ a ∈ ms := by
  induction ms with
  | nil => simp [Member.insert]
  | cons b ms ih =>
    unfold Member.insert
    cases place : m.order b with
    | lt => simp
    | eq =>
      cases (Member.order_eq_iff m b).mp place
      simp
    | gt => grind

/-- Ascending, so that no member stands twice. -/
def Member.Sorted (ms : List Member) : Prop := ms.Pairwise fun a b => a.order b = .lt

theorem Member.Sorted.insert {m : Member} {ms : List Member} (sorted : Sorted ms) :
    Sorted (m.insert ms) := by
  induction ms with
  | nil => exact List.pairwise_singleton _ m
  | cons b ms ih =>
    have ⟨above, rest⟩ := List.pairwise_cons.mp sorted
    unfold Member.insert
    cases place : m.order b with
    | lt =>
      apply List.pairwise_cons.mpr
      constructor
      · intro a a_in
        rcases List.mem_cons.mp a_in with rfl | later
        · exact place
        · exact Member.order_trans m b a place (above a later)
      · exact sorted
    | eq => exact sorted
    | gt =>
      apply List.pairwise_cons.mpr
      constructor
      · intro a a_in
        rcases Member.mem_insert.mp a_in with rfl | old
        · rw [← Member.order_swap a b, place]
          rfl
        · exact above a old
      · exact ih rest

theorem Member.order_self_ne (m : Member) : m.order m ≠ .lt := by
  rw [(Member.order_eq_iff m m).mpr rfl]
  decide

theorem Member.Sorted.nodup {ms : List Member} (sorted : Sorted ms) : ms.Nodup := by
  refine List.Pairwise.imp (fun {a b} less eq => ?_) sorted
  exact Member.order_self_ne b (eq ▸ less)

/-- Sorted lists with the same members are the same. -/
theorem Member.Sorted.ext {as bs : List Member} (sorted : Sorted as) (sorted' : Sorted bs)
    (same : ∀ m, m ∈ as ↔ m ∈ bs) : as = bs := by
  apply List.Perm.eq_of_pairwise _ sorted sorted'
  · exact (List.perm_ext_iff_of_nodup sorted.nodup sorted'.nodup).mpr same
  · intro a b _ _ less more
    exact absurd (Member.order_trans a b a less more) (Member.order_self_ne a)

namespace Ty

@[simp] theorem mem_insert {m : Member} : a ∈ (t.insert m).members ↔ a = m ∨ a ∈ t.members :=
  Member.mem_insert

@[simp] theorem mem_join : a ∈ (t.join u).members ↔ a ∈ t.members ∨ a ∈ u.members := by
  unfold join
  induction u.members generalizing t with
  | nil => simp
  | cons m ms ih =>
    rw [List.foldl_cons, ih]
    simp only [mem_insert, List.mem_cons]
    grind

theorem mem_joinAll {ts : List Ty} : a ∈ (joinAll ts).members ↔ ∃ t ∈ ts, a ∈ t.members := by
  suffices gather : ∀ t : Ty, a ∈ (ts.foldl join t).members ↔
      a ∈ t.members ∨ ∃ u ∈ ts, a ∈ u.members by
    simpa [joinAll, empty, members] using gather empty
  induction ts with
  | nil => simp
  | cons u ts ih =>
    intro t
    rw [List.foldl_cons, ih]
    simp only [mem_join, List.mem_cons, exists_eq_or_imp]
    grind

/-! Growth shows in the size. -/

theorem length_insert (m : Member) (ms : List Member) :
    m.insert ms = ms ∨ (m.insert ms).length = ms.length + 1 := by
  induction ms with
  | nil => exact .inr rfl
  | cons b ms ih =>
    unfold Member.insert
    cases m.order b with
    | lt => exact .inr rfl
    | eq => exact .inl rfl
    | gt =>
      rcases ih with same | longer
      · exact .inl (congrArg (b :: ·) same)
      · exact .inr (congrArg (· + 1) longer)

theorem size_le_join (t u : Ty) : t.size ≤ (t.join u).size := by
  unfold join
  induction u.members generalizing t with
  | nil => exact Nat.le_refl _
  | cons m ms ih =>
    apply Nat.le_trans _ (ih (t.insert m))
    rcases length_insert m t.members with same | longer
    · exact Nat.le_of_eq (congrArg List.length same).symm
    · exact Nat.le_of_lt (Nat.lt_of_succ_le (Nat.le_of_eq longer.symm))

/-- A join that is not larger adds nothing. -/
theorem join_eq_of_extend (same : (t.extend u).1 = false) : t.join u = t := by
  have size : (t.join u).size = t.size := by simpa [extend] using same
  clear same
  unfold join at size ⊢
  generalize u.members = ms at size ⊢
  induction ms generalizing t with
  | nil => rfl
  | cons m ms ih =>
    rw [List.foldl_cons] at size ⊢
    have grown : (t.insert m).size ≤ (ms.foldl (fun acc m => acc.insert m) (t.insert m)).size :=
      size_le_join (t.insert m) (.union ms)
    rcases length_insert m t.members with kept | longer
    · have kept' : t.insert m = t := by
        cases t
        exact congrArg Ty.union kept
      rw [kept'] at size ⊢
      exact ih size
    · have longer' : (t.insert m).size = t.size + 1 := longer
      omega

theorem extend_of_join_eq (same : t.join u = t) : (t.extend u).1 = false := by
  simp [extend, same]

/-- The members are in order. -/
def Sorted (t : Ty) : Prop := Member.Sorted t.members

theorem sorted_empty : empty.Sorted := List.Pairwise.nil

theorem sorted_ofMember (m : Member) : (ofMember m).Sorted := List.pairwise_singleton _ m

theorem Sorted.join (sorted : t.Sorted) (u : Ty) : (t.join u).Sorted := by
  unfold Ty.join
  induction u.members generalizing t with
  | nil => exact sorted
  | cons m ms ih => exact ih (Member.Sorted.insert sorted)

theorem mem_join_if {p : Prop} [Decidable p] :
    a ∈ (if p then t.join u else t).members ↔ a ∈ t.members ∨ p ∧ a ∈ u.members := by
  split <;> simp [*]

theorem Sorted.join_if {p : Prop} [Decidable p] (sorted : t.Sorted) (u : Ty) :
    (if p then t.join u else t).Sorted := by
  split
  · exact sorted.join u
  · exact sorted

theorem sorted_joinAll (ts : List Ty) : (joinAll ts).Sorted := by
  suffices kept : ∀ t : Ty, t.Sorted → (ts.foldl Ty.join t).Sorted from kept _ sorted_empty
  induction ts with
  | nil => exact fun _ sorted => sorted
  | cons u ts ih => exact fun t sorted => ih _ (sorted.join u)

theorem Sorted.ext (sorted : t.Sorted) (sorted' : u.Sorted)
    (same : ∀ m, m ∈ t.members ↔ m ∈ u.members) : t = u := by
  cases t
  cases u
  exact congrArg _ (Member.Sorted.ext sorted sorted' same)

/-- Joining what is there already changes nothing. -/
theorem Sorted.join_eq (sorted : t.Sorted) (there : u.members ⊆ t.members) : t.join u = t := by
  apply (sorted.join u).ext sorted
  intro m
  rw [mem_join]
  exact ⟨fun either => either.elim id fun new => there new, .inl⟩

@[simp] theorem members_empty : empty.members = [] := rfl

@[simp] theorem mem_exact {c : ModuleId} : a ∈ (exact c).members ↔ a = .cls c .exact := by
  simp [exact, ofMember, members]

end Ty

end ScriptFlow
