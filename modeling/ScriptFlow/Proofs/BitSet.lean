import Mathlib.Order.BooleanAlgebra.Set
import ScriptFlow.BitSet

/-! Bit sets against the sets of numbers that they contain. The two agree as long as no bit beyond the
capacity is set. Only a union can set one, since it takes over whole words, and the capacities that
rule it out are given exactly. -/

namespace ScriptFlow.BitSet

variable {i : Nat}
variable {s t : BitSet}

/-- No bit beyond the capacity is set. -/
def Fits (s : BitSet) : Prop := ∀ i, s.mask.testBit i = true → i < s.capacity

def members (s : BitSet) : Set Nat := {i | s.contains i = true}

theorem capacity_le_width (s : BitSet) : s.capacity ≤ s.width := by
  unfold width
  omega

theorem members_empty (capacity : Nat) : (empty capacity).members = ∅ := by
  simp [members, empty, contains]

theorem testBit_union (s t : BitSet) (i : Nat) : (s.union t).mask.testBit i = true ↔
    s.mask.testBit i = true ∨ i < s.width ∧ t.mask.testBit i = true := by
  simp [union, Nat.one_shiftLeft, Nat.testBit_mod_two_pow]

namespace Fits

theorem empty (capacity : Nat) : (BitSet.empty capacity).Fits := fun i bit => by
  simp [BitSet.empty] at bit

theorem mem_members (fits : s.Fits) : i ∈ s.members ↔ s.mask.testBit i = true := by
  simp only [members, contains, Set.mem_ofPred_eq, Bool.and_eq_true, decide_eq_true_eq,
    and_iff_right_iff_imp]
  exact fits i

/-- Sets with the same room are told apart by their members, so a set is changed exactly if its
members are. -/
theorem eq_iff (s_fits : s.Fits) (t_fits : t.Fits) (room : s.capacity = t.capacity) :
    s = t ↔ s.members = t.members := by
  refine ⟨congrArg members, fun same => ?_⟩
  have masks : s.mask = t.mask := Nat.eq_of_testBit_eq fun i => by
    rw [Bool.eq_iff_iff, ← s_fits.mem_members, ← t_fits.mem_members, same]
  cases s
  cases t
  exact congrArg₂ BitSet.mk room masks

theorem toList_eq (fits : s.Fits) : s.toList = (List.range s.capacity).filter s.contains := by
  obtain ⟨spare, width_eq⟩ := Nat.exists_eq_add_of_le s.capacity_le_width
  have beyond : ((List.range spare).map (s.capacity + ·)).filter s.mask.testBit = [] := by
    refine List.filter_eq_nil_iff.mpr fun i member bit => ?_
    obtain ⟨k, _, rfl⟩ := List.mem_map.mp member
    exact absurd (fits _ bit) (by omega)
  rw [toList, width_eq, List.range_add, List.filter_append, beyond, List.append_nil]
  refine List.filter_congr fun i member => ?_
  simp [contains, List.mem_range.mp member]

theorem size_eq (fits : s.Fits) : s.size = (List.range s.capacity).countP s.contains := by
  rw [size, fits.toList_eq, List.countP_eq_length_filter]

theorem isEmpty_iff (fits : s.Fits) : s.isEmpty = true ↔ s.members = ∅ := by
  rw [← members_empty s.capacity, ← fits.eq_iff (.empty s.capacity) rfl]
  cases s
  simp [isEmpty, BitSet.empty]

/-! What the operations do. -/

/-- A number that fits is inserted, and the answer says whether it is new. -/
theorem insert? (fits : s.Fits) (inside : i < s.capacity) :
    ∃ new s', s.insert? i = some (new, s') ∧ (new = true ↔ i ∉ s.members) ∧
      s'.capacity = s.capacity ∧ s'.Fits ∧ s'.members = insert i s.members := by
  have bits (j : Nat) : (s.mask ||| 1 <<< i).testBit j = true ↔ j = i ∨ s.mask.testBit j = true := by
    rw [Nat.testBit_or, Nat.one_shiftLeft, Nat.testBit_two_pow]
    grind
  have kept : ({ s with mask := s.mask ||| 1 <<< i } : BitSet).Fits := fun j bit =>
    ((bits j).mp bit).elim (fun here => here ▸ inside) (fits j)
  refine ⟨_, _, if_pos inside, by simp [fits.mem_members], rfl, kept, Set.ext fun j => ?_⟩
  rw [kept.mem_members, Set.mem_insert_iff, fits.mem_members]
  exact bits j

theorem erase (fits : s.Fits) (i : Nat) :
    (s.erase i).Fits ∧ (s.erase i).members = s.members \ {i} := by
  unfold BitSet.erase
  split
  · rename_i here
    have bits (j : Nat) : (s.mask ^^^ 1 <<< i).testBit j = true ↔ s.mask.testBit j = true ∧ j ≠ i := by
      have set : s.mask.testBit i = true := fits.mem_members.mp here
      rw [Nat.testBit_xor, Nat.one_shiftLeft, Nat.testBit_two_pow]
      grind
    have kept : ({ s with mask := s.mask ^^^ 1 <<< i } : BitSet).Fits := fun j bit =>
      fits j ((bits j).mp bit).1
    refine ⟨kept, Set.ext fun j => ?_⟩
    rw [kept.mem_members, Set.mem_sdiff, fits.mem_members, Set.mem_singleton_iff]
    exact bits j
  · rename_i absent
    have outside : i ∉ s.members := absent
    exact ⟨fits, (Set.sdiff_singleton_eq_self outside).symm⟩

/-- A union stays within the capacity if the other set or the last word does. -/
theorem union (s_fits : s.Fits) (t_fits : t.Fits)
    (covers : t.capacity ≤ s.capacity ∨ 64 ∣ s.capacity) :
    (s.union t).Fits ∧ (s.union t).members = s.members ∪ t.members ∩ {i | i < s.capacity} := by
  have room := s.capacity_le_width
  have kept : (s.union t).Fits := fun i bit => by
    change i < s.capacity
    rcases (testBit_union s t i).mp bit with old | ⟨stored, new⟩
    · exact s_fits i old
    · rcases covers with smaller | whole
      · exact Nat.lt_of_lt_of_le (t_fits i new) smaller
      · unfold width at stored
        omega
  refine ⟨kept, Set.ext fun i => ?_⟩
  have inside : (s.union t).mask.testBit i = true → i < s.capacity := kept i
  rw [kept.mem_members, Set.mem_union, Set.mem_inter_iff, s_fits.mem_members, t_fits.mem_members,
    Set.mem_ofPred_eq]
  rw [testBit_union] at inside ⊢
  grind

theorem inter (s_fits : s.Fits) (t_fits : t.Fits) :
    (s.inter t).Fits ∧ (s.inter t).members = s.members ∩ t.members := by
  have bits (i : Nat) : (s.inter t).mask.testBit i = true ↔
      s.mask.testBit i = true ∧ t.mask.testBit i = true := by
    simp [BitSet.inter]
  have kept : (s.inter t).Fits := fun i bit => s_fits i ((bits i).mp bit).1
  refine ⟨kept, Set.ext fun i => ?_⟩
  rw [kept.mem_members, Set.mem_inter_iff, s_fits.mem_members, t_fits.mem_members]
  exact bits i

end Fits

/-- Room for the numbers below `n`, and no bit beyond them set. -/
structure Sized (n : Nat) (s : BitSet) : Prop where
  room : s.capacity = n
  fits : s.Fits

theorem lt_capacity (member : i ∈ s.members) : i < s.capacity := by
  simp only [members, contains, Set.mem_ofPred_eq, Bool.and_eq_true, decide_eq_true_eq] at member
  exact member.1

namespace Sized

variable {n : Nat}

theorem empty (n : Nat) : (BitSet.empty n).Sized n := ⟨rfl, .empty n⟩

theorem lt (sized : s.Sized n) (member : i ∈ s.members) : i < n :=
  sized.room ▸ lt_capacity member

theorem add (sized : s.Sized n) (i : Nat) :
    (s.add i).Sized n ∧ ∀ j, j ∈ (s.add i).members ↔ j ∈ s.members ∨ j = i ∧ i < n := by
  obtain ⟨rfl, fits⟩ := sized
  by_cases inside : i < s.capacity
  · obtain ⟨new, s', run, _, room, fits', members⟩ := fits.insert? inside
    simp only [BitSet.add, run, Option.elim_some, members, Set.mem_insert_iff, inside, and_true]
    exact ⟨⟨room, fits'⟩, fun j => or_comm⟩
  · have refused : s.insert? i = none := if_neg inside
    simp [BitSet.add, refused, inside, Sized.mk rfl fits]

theorem addAll (sized : s.Sized n) (is : List Nat) :
    (is.foldl BitSet.add s).Sized n ∧
      ∀ j, j ∈ (is.foldl BitSet.add s).members ↔ j ∈ s.members ∨ j ∈ is ∧ j < n := by
  induction is generalizing s with
  | nil => simp [sized]
  | cons i is ih =>
    obtain ⟨one, mem_one⟩ := sized.add i
    obtain ⟨all, mem⟩ := ih one
    refine ⟨all, fun j => ?_⟩
    rw [List.foldl_cons, mem, mem_one, List.mem_cons]
    grind

theorem erase (sized : s.Sized n) (i : Nat) :
    (s.erase i).Sized n ∧ (s.erase i).members = s.members \ {i} := by
  obtain ⟨fits, members⟩ := sized.fits.erase i
  refine ⟨⟨?_, fits⟩, members⟩
  rw [← sized.room, BitSet.erase]
  split <;> rfl

theorem union (s_sized : s.Sized n) (t_fits : t.Fits) (smaller : t.capacity ≤ n) :
    (s.union t).Sized n ∧ (s.union t).members = s.members ∪ t.members := by
  obtain ⟨rfl, s_fits⟩ := s_sized
  obtain ⟨fits, members⟩ := s_fits.union t_fits (.inl smaller)
  refine ⟨⟨rfl, fits⟩, members.trans (congrArg _ (Set.inter_eq_left.mpr fun i member => ?_))⟩
  exact Nat.lt_of_lt_of_le (lt_capacity member) smaller

theorem unionAll (sized : s.Sized n) (sets : Nat → BitSet) (cs : List Nat)
    (small : ∀ c ∈ cs, (sets c).Fits ∧ (sets c).capacity ≤ n) :
    (cs.foldl (fun s c => s.union (sets c)) s).Sized n ∧
      ∀ i, i ∈ (cs.foldl (fun s c => s.union (sets c)) s).members ↔
        i ∈ s.members ∨ ∃ c ∈ cs, i ∈ (sets c).members := by
  induction cs generalizing s with
  | nil => simp [sized]
  | cons c cs ih =>
    obtain ⟨fits, room⟩ := small c List.mem_cons_self
    obtain ⟨one, members⟩ := sized.union fits room
    obtain ⟨all, mem⟩ := ih one fun d member => small d (List.mem_cons_of_mem _ member)
    refine ⟨all, fun i => ?_⟩
    rw [List.foldl_cons, mem, members, Set.mem_union, or_assoc]
    simp

theorem mem_toList (sized : s.Sized n) : i ∈ s.toList ↔ i ∈ s.members := by
  rw [sized.fits.toList_eq, List.mem_filter, List.mem_range]
  exact and_iff_right_of_imp lt_capacity

theorem diff (s_sized : s.Sized n) (t_sized : t.Sized n) :
    (s.diff t).Sized n ∧ (s.diff t).members = s.members \ t.members := by
  have all (is : List Nat) (s : BitSet) (sized : s.Sized n) : (is.foldl BitSet.erase s).Sized n ∧
      (is.foldl BitSet.erase s).members = s.members \ {i | i ∈ is} := by
    induction is generalizing s with
    | nil => simp [sized]
    | cons i is ih =>
      obtain ⟨one, members_one⟩ := sized.erase i
      obtain ⟨rest, members⟩ := ih _ one
      refine ⟨rest, ?_⟩
      rw [List.foldl_cons, members, members_one]
      ext j
      simp only [Set.mem_sdiff, Set.mem_singleton_iff, Set.mem_ofPred_eq, List.mem_cons]
      tauto
  obtain ⟨sized, members⟩ := all t.toList s s_sized
  refine ⟨sized, members.trans (congrArg _ (Set.ext fun i => ?_))⟩
  exact t_sized.mem_toList

/-- The report of a union tells whether a member is new. -/
theorem unionWith (s_sized : s.Sized n) (t_sized : t.Sized n) :
    (s.unionWith t).2.Sized n ∧ (s.unionWith t).2.members = s.members ∪ t.members ∧
      ((s.unionWith t).1 = true ↔ ¬t.members ⊆ s.members) := by
  obtain ⟨sized, members⟩ := s_sized.union t_sized.fits t_sized.room.le
  refine ⟨sized, members, ?_⟩
  rw [BitSet.unionWith, bne_iff_ne, Ne,
    sized.fits.eq_iff s_sized.fits (sized.room.trans s_sized.room.symm), members,
    Set.union_eq_left]

/-- The report of an intersection tells whether a member is lost. -/
theorem interWith (s_sized : s.Sized n) (t_fits : t.Fits) :
    (s.interWith t).1 = true ↔ ¬s.members ⊆ t.members := by
  obtain ⟨fits, members⟩ := s_sized.fits.inter t_fits
  rw [BitSet.interWith, bne_iff_ne, Ne, fits.eq_iff s_sized.fits rfl, members, Set.inter_eq_left]

end Sized

/-! Runs over any number of sets, which are named by numbers. -/

inductive Edit where
  | insert (a i : Nat)
  | erase (a i : Nat)
  | union (a b : Nat)
  | inter (a b : Nat)

/-- A number that does not fit is not inserted. -/
def Edit.apply (pool : Nat → BitSet) : Edit → Nat → BitSet
  | .insert a i => ((pool a).insert? i).elim pool fun r => Function.update pool a r.2
  | .erase a i => Function.update pool a ((pool a).erase i)
  | .union a b => Function.update pool a ((pool a).union (pool b))
  | .inter a b => Function.update pool a ((pool a).inter (pool b))

/-- The same on sets of numbers below the capacities. -/
def Edit.applyToSets (capacity : Nat → Nat) (sets : Nat → Set Nat) : Edit → Nat → Set Nat
  | .insert a i => if i < capacity a then Function.update sets a (Insert.insert i (sets a)) else sets
  | .erase a i => Function.update sets a (sets a \ {i})
  | .union a b => Function.update sets a (sets a ∪ sets b ∩ {i | i < capacity a})
  | .inter a b => Function.update sets a (sets a ∩ sets b)

def run (capacity : Nat → Nat) (edits : List Edit) : Nat → BitSet :=
  edits.foldl Edit.apply fun a => empty (capacity a)

def runOnSets (capacity : Nat → Nat) (edits : List Edit) : Nat → Set Nat :=
  edits.foldl (Edit.applyToSets capacity) fun _ => ∅

/-- Every set fits and has the members it should have. -/
structure Agree (capacity : Nat → Nat) (pool : Nat → BitSet) (sets : Nat → Set Nat) : Prop where
  room : ∀ a, (pool a).capacity = capacity a
  holds : ∀ a, (pool a).Fits ∧ (pool a).members = sets a

namespace Agree

variable {capacity : Nat → Nat} {pool : Nat → BitSet} {sets : Nat → Set Nat}

theorem update (agree : Agree capacity pool sets) {a : Nat} {set : Set Nat}
    (room : s.capacity = capacity a) (holds : s.Fits ∧ s.members = set) :
    Agree capacity (Function.update pool a s) (Function.update sets a set) := by
  refine ⟨fun b => ?_, fun b => ?_⟩
  all_goals
    by_cases here : b = a
    · subst here
      simp [room, holds]
    · simp [here, agree.room, agree.holds]

/-- One step, where no union brings numbers that fit the last word but not the capacity. -/
theorem apply (agree : Agree capacity pool sets)
    (covers : ∀ a b, capacity b ≤ capacity a ∨ 64 ∣ capacity a) (e : Edit) :
    Agree capacity (e.apply pool) (e.applyToSets capacity sets) := by
  have room := agree.room
  cases e with
  | insert a i =>
    obtain ⟨fits, members⟩ := agree.holds a
    by_cases inside : i < capacity a
    · obtain ⟨new, s', run, -, room', holds⟩ := fits.insert? (room a ▸ inside)
      simp only [Edit.apply, Edit.applyToSets, run, if_pos inside]
      exact agree.update (room'.trans (room a)) (members ▸ holds)
    · have refused : (pool a).insert? i = none := if_neg (by rwa [room])
      simp only [Edit.apply, Edit.applyToSets, refused, if_neg inside]
      exact agree
  | erase a i =>
    obtain ⟨fits, members⟩ := agree.holds a
    refine agree.update ?_ (members ▸ fits.erase i)
    rw [← room a, BitSet.erase]
    split <;> rfl
  | union a b =>
    have joined := (agree.holds a).1.union (agree.holds b).1 (by rw [room, room]; exact covers a b)
    rw [(agree.holds a).2, (agree.holds b).2, room] at joined
    exact agree.update (room a) joined
  | inter a b =>
    have met := (agree.holds a).1.inter (agree.holds b).1
    rw [(agree.holds a).2, (agree.holds b).2] at met
    exact agree.update (room a) met

end Agree

theorem run_agree {capacity : Nat → Nat}
    (covers : ∀ a b, capacity b ≤ capacity a ∨ 64 ∣ capacity a) (edits : List Edit) :
    Agree capacity (run capacity edits) (runOnSets capacity edits) := by
  have start : Agree capacity (fun a => empty (capacity a)) fun _ => ∅ :=
    ⟨fun _ => rfl, fun a => ⟨.empty _, members_empty _⟩⟩
  unfold run runOnSets
  generalize (fun a => empty (capacity a)) = pool at start ⊢
  generalize (fun _ => (∅ : Set Nat)) = sets at start ⊢
  induction edits generalizing pool sets with
  | nil => exact start
  | cons e edits ih => exact ih _ _ (start.apply covers e)

/-- A union with a larger set can leave behind a number that fits the last word but not the capacity:
it is listed, and not contained. -/
theorem listed_after_union {capacity : Nat → Nat} {a b : Nat} (smaller : capacity a < capacity b)
    (partly : ¬64 ∣ capacity a) :
    capacity a ∈ (run capacity [.insert b (capacity a), .union a b] a).toList ∧
      (run capacity [.insert b (capacity a), .union a b] a).contains (capacity a) = false := by
  have other : a ≠ b := fun same => by simp [same] at smaller
  have stored : capacity a < (empty (capacity a)).width := by
    simp only [width, empty]
    omega
  have result : run capacity [.insert b (capacity a), .union a b] a =
      (empty (capacity a)).union ⟨capacity b, 0 ||| 1 <<< capacity a⟩ := by
    simp [run, Edit.apply, insert?, empty, other, smaller]
  rw [result]
  refine ⟨List.mem_filter.mpr ⟨List.mem_range.mpr stored, ?_⟩, by simp [contains, union, empty]⟩
  exact (testBit_union _ _ _).mpr (.inr ⟨stored, by simp [Nat.one_shiftLeft]⟩)

/-- Bit sets agree with sets in every run exactly if each capacity is the largest one or a number of
whole words. -/
theorem run_agree_iff (capacity : Nat → Nat) :
    (∀ edits, Agree capacity (run capacity edits) (runOnSets capacity edits)) ↔
      ∀ a b, capacity b ≤ capacity a ∨ 64 ∣ capacity a := by
  refine ⟨fun agree a b => ?_, run_agree⟩
  by_contra neither
  rw [not_or, Nat.not_le] at neither
  obtain ⟨listed, absent⟩ := listed_after_union neither.1 neither.2
  rw [((agree _).holds a).1.toList_eq, List.mem_filter] at listed
  exact absurd listed.2 (by simp [absent])

end ScriptFlow.BitSet
