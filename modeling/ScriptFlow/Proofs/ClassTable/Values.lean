import ScriptFlow.Proofs.ClassTable.Extension
import ScriptFlow.Proofs.Dict
import ScriptFlow.Proofs.Ty
import ScriptFlow.ClassTable.Typing

/-! What types say about values. The tests on types, subtyping and overlap, are right about the
values that have the types. -/

namespace ScriptFlow.ClassTable

variable {v : Value}

mutual

def admits (c : ClassTable) : Ty → Value → Bool
  | .union ms, v => admitsAny c ms v
termination_by structural t => t

def admitsAny (c : ClassTable) : List Member → Value → Bool
  | [], _ => false
  | m :: ms, v => admitsMember c m v || admitsAny c ms v
termination_by structural ms => ms

/-- A class admits its instances, a tuple the arrays of its length with items that fit its slots. -/
def admitsMember (c : ClassTable) : Member → Value → Bool
  | .cls m .exact, v => c.classOf v == m
  | .cls m .orBelow, v => c.isA (c.classOf v) m
  | .tuple slots, .array items => admitsAll c slots items
  | .tuple _, _ => false
termination_by structural m => m

def admitsAll (c : ClassTable) : List Ty → List Value → Bool
  | [], [] => true
  | t :: ts, v :: vs => admits c t v && admitsAll c ts vs
  | _, _ => false
termination_by structural ts => ts

end

mutual

/-- A value that can come up with this table: its modules are there, and its objects are instances
of classes. -/
def Knows (c : ClassTable) : Value → Prop
  | .moduleRef m => m < c.size
  | .object m _ => c.HasClass m
  | .array items => KnowsAll c items
  | _ => True

def KnowsAll (c : ClassTable) : List Value → Prop
  | [] => True
  | v :: vs => Knows c v ∧ KnowsAll c vs

end

/-- Every class descends from `BasicObject`. -/
def Rooted (c : ClassTable) : Prop :=
  ∀ m < c.size, c.isClass m = true → c.isA m CoreClass.basicObject = true

instance (c : ClassTable) : Decidable c.Rooted := inferInstanceAs (Decidable (∀ m < c.size, _))

variable {c : ClassTable}

theorem admitsAny_iff {ms : List Member} :
    c.admitsAny ms v = true ↔ ∃ m ∈ ms, c.admitsMember m v = true := by
  induction ms with
  | nil => simp [admitsAny]
  | cons m ms ih => simp [admitsAny, ih]

theorem admits_iff {t : Ty} : c.admits t v = true ↔ ∃ m ∈ t.members, c.admitsMember m v = true := by
  cases t
  exact admitsAny_iff

theorem allWithin_iff {ms : List Member} {u : Ty} :
    c.allWithin ms u = true ↔ ∀ m ∈ ms, ∃ n ∈ u.members, c.memberWithin m n = true := by
  induction ms with
  | nil => simp [allWithin]
  | cons m ms ih => simp [allWithin, ih]

/-! The class of a value. -/

theorem Grounded.hasClass_classOf (grounded : c.Grounded) (known : c.Knows v) :
    c.HasClass (c.classOf v) := by
  cases v with
  | moduleRef m => exact grounded.singletonOf m known
  | object m serial => exact known
  | bool b =>
    cases b with
    | false => exact grounded.core CoreClass.falseClass (by decide) (by decide)
    | true => exact grounded.core CoreClass.trueClass (by decide) (by decide)
  | _ => exact grounded.core _ (by simp only [classOf]; decide) (by simp only [classOf]; decide)

theorem mem_descendants {m d : Nat} : d ∈ c.descendants m ↔ c.HasClass d ∧ c.isA d m = true := by
  simp [descendants, HasClass, and_assoc]

theorem mem_possibleClasses {t : Ty} {k : ModuleId} :
    k ∈ c.possibleClasses t ↔ ∃ m ∈ t.members, k ∈ c.memberClasses m := by
  rw [possibleClasses, mem_foldl_insertNat]
  simp

/-- A value's class is among those of each alternative that the value falls under. -/
theorem mem_memberClasses {m : Member} (has : c.HasClass (c.classOf v))
    (admitted : c.admitsMember m v = true) : c.classOf v ∈ c.memberClasses m := by
  cases m with
  | cls k variance =>
    cases variance with
    | exact => simpa [memberClasses, admitsMember] using admitted
    | orBelow => exact mem_descendants.mpr ⟨has, admitted⟩
  | tuple slots =>
    cases v with
    | array items => simp [memberClasses, classOf]
    | _ => cases admitted

theorem admitsMember_of_classesWithin {m : Member} {target : ModuleId} {variance : Variance}
    (has : c.HasClass (c.classOf v)) (admitted : c.admitsMember m v = true)
    (within : c.classesWithin m target variance = true) :
    c.admitsMember (.cls target variance) v = true := by
  have fits := List.all_eq_true.mp within _ (mem_memberClasses has admitted)
  cases variance with
  | exact => exact fits
  | orBelow => exact fits

/-! A type with more members is a supertype. -/

theorem classesWithin_self (m : ModuleId) (v : Variance) :
    c.classesWithin (.cls m v) m v = true := by
  cases v with
  | exact => simp [classesWithin, memberClasses]
  | orBelow =>
    rw [classesWithin, List.all_eq_true]
    intro k k_in
    exact (mem_descendants.mp k_in).2

mutual

theorem isSubtype_refl : ∀ t : Ty, c.isSubtype t t = true
  | .union ms => by
    rw [isSubtype, Bool.or_eq_true]
    right
    rw [allWithin_iff]
    intro m m_in
    exact ⟨m, m_in, memberWithin_refl_of_mem ms m m_in⟩

theorem memberWithin_refl : ∀ m : Member, c.memberWithin m m = true
  | .cls m v => classesWithin_self m v
  | .tuple slots => slotsWithin_refl slots

theorem memberWithin_refl_of_mem : ∀ (ms : List Member) (m : Member), m ∈ ms →
    c.memberWithin m m = true
  | [], _, m_in => by cases m_in
  | n :: ns, m, m_in => by
    rcases List.mem_cons.mp m_in with first | later
    · rw [first]
      exact memberWithin_refl n
    · exact memberWithin_refl_of_mem ns m later

theorem slotsWithin_refl : ∀ ts : List Ty, c.slotsWithin ts ts = true
  | [] => rfl
  | t :: ts => by
    rw [slotsWithin, Bool.and_eq_true]
    exact ⟨isSubtype_refl t, slotsWithin_refl ts⟩

end

theorem isSubtype_of_isTop {u : Ty} (top : u.isTop = true) (t : Ty) : c.isSubtype t u = true := by
  cases t
  rw [isSubtype, top, Bool.true_or]

/-! A value of a type has all the type's supertypes. Tuples make the argument recursive: slots are
types again, and the items of a known array are known. -/

mutual

theorem Rooted.admits_of_isSubtype (rooted : c.Rooted) (grounded : c.Grounded) :
    ∀ (t u : Ty) (v : Value), c.Knows v → c.isSubtype t u = true → c.admits t v = true →
      c.admits u v = true
  | .union ms, u, v, known, within, admitted => by
    rw [isSubtype, Bool.or_eq_true] at within
    rw [admits_iff]
    rcases within with top | within
    · refine ⟨_, List.contains_iff_mem.mp top, ?_⟩
      have has := grounded.hasClass_classOf known
      exact rooted _ has.1 has.2
    · exact rooted.admits_of_allWithin grounded ms u v known within admitted

theorem Rooted.admits_of_allWithin (rooted : c.Rooted) (grounded : c.Grounded) :
    ∀ (ms : List Member) (u : Ty) (v : Value), c.Knows v → c.allWithin ms u = true →
      c.admitsAny ms v = true → ∃ n ∈ u.members, c.admitsMember n v = true
  | [], _, _, _, _, admitted => by cases admitted
  | m :: ms, u, v, known, within, admitted => by
    rw [allWithin, Bool.and_eq_true, List.any_eq_true] at within
    rw [admitsAny, Bool.or_eq_true] at admitted
    rcases admitted with first | later
    · obtain ⟨n, n_in, fits⟩ := within.1
      exact ⟨n, n_in, rooted.admits_of_memberWithin grounded m n v known fits first⟩
    · exact rooted.admits_of_allWithin grounded ms u v known within.2 later

theorem Rooted.admits_of_memberWithin (rooted : c.Rooted) (grounded : c.Grounded) :
    ∀ (m n : Member) (v : Value), c.Knows v → c.memberWithin m n = true →
      c.admitsMember m v = true → c.admitsMember n v = true
  | .cls k w, .cls target variance, v, known, within, admitted =>
    admitsMember_of_classesWithin (grounded.hasClass_classOf known) admitted within
  | .cls _ _, .tuple _, _, _, within, _ => by cases within
  | .tuple as, .cls target variance, v, known, within, admitted =>
    admitsMember_of_classesWithin (grounded.hasClass_classOf known) admitted within
  | .tuple as, .tuple bs, v, known, within, admitted => by
    cases v with
    | array items => exact rooted.admits_of_slotsWithin grounded as bs items known within admitted
    | _ => cases admitted

theorem Rooted.admits_of_slotsWithin (rooted : c.Rooted) (grounded : c.Grounded) :
    ∀ (as bs : List Ty) (vs : List Value), c.KnowsAll vs → c.slotsWithin as bs = true →
      c.admitsAll as vs = true → c.admitsAll bs vs = true
  | [], [], _, _, _, admitted => admitted
  | [], _ :: _, _, _, within, _ => by cases within
  | _ :: _, [], _, _, within, _ => by cases within
  | _ :: _, _ :: _, [], _, _, admitted => by cases admitted
  | a :: as, b :: bs, v :: vs, known, within, admitted => by
    rw [slotsWithin, Bool.and_eq_true] at within
    rw [admitsAll, Bool.and_eq_true] at admitted ⊢
    constructor
    · exact rooted.admits_of_isSubtype grounded a b v known.1 within.1 admitted.1
    · exact rooted.admits_of_slotsWithin grounded as bs vs known.2 within.2 admitted.2

end

/-! A value has the type that is computed for it. -/

mutual

theorem admits_typeOf (c : ClassTable) : ∀ v : Value, c.admits (c.typeOf v) v = true
  | .array items => by
    rw [typeOf, admits_iff]
    exact ⟨_, List.mem_singleton_self _, admitsAll_typesOf c items⟩
  | .nil | .bool _ | .int _ | .float _ | .str _ | .sym _ | .hash _ | .range _ _ _ | .moduleRef _
  | .proc _ | .object _ _ => admits_iff.mpr ⟨_, List.mem_singleton_self _, beq_self_eq_true _⟩

theorem admitsAll_typesOf (c : ClassTable) :
    ∀ vs : List Value, c.admitsAll (c.typesOf vs) vs = true
  | [] => rfl
  | v :: vs => by
    rw [typesOf, admitsAll, Bool.and_eq_true]
    exact ⟨admits_typeOf c v, admitsAll_typesOf c vs⟩

end

theorem overlaps_of_admits {t u : Ty} (has : c.HasClass (c.classOf v))
    (left : c.admits t v = true) (right : c.admits u v = true) : c.overlaps t u = true := by
  obtain ⟨m, m_in, m_admits⟩ := admits_iff.mp left
  obtain ⟨n, n_in, n_admits⟩ := admits_iff.mp right
  have inhabited : (t.isEmpty || u.isEmpty) = false := by
    simp only [Ty.isEmpty, Bool.or_eq_false_iff, List.isEmpty_eq_false_iff]
    exact ⟨List.ne_nil_of_mem m_in, List.ne_nil_of_mem n_in⟩
  have ours := mem_possibleClasses.mpr ⟨m, m_in, mem_memberClasses has m_admits⟩
  have theirs := mem_possibleClasses.mpr ⟨n, n_in, mem_memberClasses has n_admits⟩
  rw [overlaps, inhabited, if_neg Bool.false_ne_true]
  split
  · rfl
  · exact List.any_eq_true.mpr ⟨_, theirs, List.contains_iff_mem.mpr ours⟩

/-- The tests on types answer for values: a value has its computed type, it has every supertype of
a type it has, and two types that share a value overlap. -/
theorem typing_sound {c : ClassTable} (extended : ExtendsCore c) (rooted : c.Rooted) {v : Value}
    (known : c.Knows v) :
    c.admits (c.typeOf v) v = true ∧
      (∀ t u, c.isSubtype t u = true → c.admits t v = true → c.admits u v = true) ∧
      ∀ t u, c.admits t v = true → c.admits u v = true → c.overlaps t u = true := by
  have grounded := extended.grounded
  refine ⟨admits_typeOf c v, ?_, ?_⟩
  · intro t u within admitted
    exact rooted.admits_of_isSubtype grounded t u v known within admitted
  · intro t u left right
    exact overlaps_of_admits (grounded.hasClass_classOf known) left right

/-- The core classes with a class `Point` that includes a module `Shape`. -/
def shapes : ClassTable :=
  ((ClassTable.core.defineModule "Shape").2.defineClass "Point" none).2.includeModule 62 60

def pointWithClass : Value := .array [.object 62 0, .moduleRef 62]

theorem typing_sound_shapes :
    shapes.admits (.tuple [.orBelow 60, .orBelow CoreClass.classClass]) pointWithClass = true ∧
      shapes.overlaps (.exact CoreClass.array)
        (.tuple [.orBelow 60, .orBelow CoreClass.classClass]) = true := by
  have extended : ExtendsCore shapes :=
    .includeModule _ _ (.defineClass _ _ (.defineModule _ .core))
  have rooted : shapes.Rooted := by decide +kernel
  have object : shapes.HasClass 62 := by decide +kernel
  have known : shapes.Knows pointWithClass := by
    simp only [pointWithClass, Knows, KnowsAll]
    exact ⟨object, object.1, trivial⟩
  obtain ⟨own, sub, overlap⟩ := typing_sound extended rooted known
  have wide := sub _ (.tuple [.orBelow 60, .orBelow CoreClass.classClass]) (by decide +kernel) own
  exact ⟨wide, overlap _ _ (by decide +kernel) wide⟩

end ScriptFlow.ClassTable
