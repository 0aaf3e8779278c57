import ScriptFlow.Core.Evaluate

/-! Folding on integers is exact: what is returned is the mathematical result, and what does not fit
in 64 bits is refused. Quotients and remainders are made from truncated ones by operations that would
wrap around; none of them does. Ranges give all their integers, unless they are to stop before the
least integer there is: then working them out breaks off. -/

namespace ScriptFlow.Core

variable {a b m : Int64} {n : Int}

/-- Whether an integer has a place in 64 bits. -/
def Fits (n : Int) : Prop := -9223372036854775808 ≤ n ∧ n ≤ 9223372036854775807

instance (n : Int) : Decidable (Fits n) := inferInstanceAs (Decidable (_ ∧ _))

/-- The integer is returned where it fits, and the call is refused where it does not. -/
def Computes (x : Folded Value) (n : Int) : Prop :=
  if Fits n then ∃ m : Int64, m.toInt = n ∧ x = .ok (.int m) else x = Folded.overflow

theorem fits_toInt (m : Int64) : Fits m.toInt := ⟨m.le_toInt, Int.le_of_lt_add_one m.toInt_lt⟩

theorem Fits.bmod_eq (fits : Fits n) : n.bmod 18446744073709551616 = n := by
  obtain ⟨low, high⟩ := fits
  exact Int.bmod_eq_of_le (by omega) (by omega)

theorem computes_ok (is : m.toInt = n) : Computes (.ok (.int m)) n := by
  rw [Computes, if_pos (is ▸ fits_toInt m)]
  exact ⟨m, is, rfl⟩

theorem computes_fitted (n : Int) : Computes (fitted n) n := by
  rw [fitted, int64?]
  by_cases fits : Int64.minValue.toInt ≤ n ∧ n ≤ Int64.maxValue.toInt
  · have same : (Int64.ofInt n).toInt = n := Int64.toInt_ofInt.trans (Fits.bmod_eq fits)
    rw [if_pos fits]
    exact computes_ok same
  · rw [if_neg fits, Computes]
    exact (if_neg fits).mpr rfl

/-! Division. -/

/-- There is a quotient, and it fits; the one of the least integer and minus one is too large. -/
structure CanDivide (a b : Int64) : Prop where
  divisor : b ≠ 0
  fits : ¬(a = Int64.minValue ∧ b = -1)

namespace CanDivide

theorem toInt_div (divides : CanDivide a b) : (a / b).toInt = a.toInt.tdiv b.toInt := by
  by_cases least : a = Int64.minValue
  · exact Int64.toInt_div_of_ne_right a b fun unit => divides.fits ⟨least, unit⟩
  · exact Int64.toInt_div_of_ne_left a b least

theorem toInt_ne_zero (divides : CanDivide a b) : b.toInt ≠ 0 :=
  fun zero => divides.divisor (Int64.toInt_inj.mp zero)

/-- The truncated remainder is smaller than the divisor and has the sign of the dividend. -/
theorem toInt_mod_bounds (divides : CanDivide a b) :
    (a % b).toInt.natAbs < b.toInt.natAbs ∧ (0 ≤ a.toInt → 0 ≤ (a % b).toInt) ∧
      (a.toInt ≤ 0 → (a % b).toInt ≤ 0) := by
  rw [Int64.toInt_mod]
  refine ⟨?_, fun nonneg => Int.tmod_nonneg _ nonneg, fun nonpos => ?_⟩
  · rw [Int.natAbs_tmod]
    exact Nat.mod_lt _ (Int.natAbs_pos.mpr divides.toInt_ne_zero)
  · have mirrored := Int.tmod_nonneg b.toInt (Int.neg_nonneg_of_nonpos nonpos)
    rw [Int.neg_tmod] at mirrored
    omega

/-- Where something is left over, the divisor is no unit and the quotient is far from the bounds. -/
theorem toInt_sub_one (divides : CanDivide a b) (left : a % b ≠ 0) :
    (a / b - 1).toInt = (a / b).toInt - 1 := by
  have inexact : (a % b).toInt ≠ 0 := fun zero => left (Int64.toInt_inj.mp zero)
  have half : (a / b).toInt.natAbs ≤ a.toInt.natAbs / 2 := by
    have smaller := divides.toInt_mod_bounds.1
    rw [divides.toInt_div, Int.natAbs_tdiv]
    exact Nat.div_le_div_left (by omega) Nat.two_pos
  obtain ⟨low, high⟩ := fits_toInt a
  rw [Int64.toInt_sub]
  exact Fits.bmod_eq ⟨by rw [Int64.toInt_one]; omega, by rw [Int64.toInt_one]; omega⟩

end CanDivide

/-- Summands of different signs do not add up to too much. -/
theorem toInt_add_of_signs (differ : ¬(a < 0 ↔ b < 0)) : (a + b).toInt = a.toInt + b.toInt := by
  rw [Int64.lt_iff_toInt_lt, Int64.lt_iff_toInt_lt, Int64.toInt_zero] at differ
  have first := fits_toInt a
  have second := fits_toInt b
  rw [Int64.toInt_add]
  unfold Fits at first second
  exact Fits.bmod_eq ⟨by omega, by omega⟩

/-- The corrections make the quotient the floored one, with a remainder on the side of the divisor. -/
theorem CanDivide.floored (divides : CanDivide a b) :
    a.toInt.fdiv b.toInt = (flooredQuotient a b).toInt ∧
      a.toInt.fmod b.toInt = (flooredRemainder a b).toInt := by
  have law : (a % b).toInt + b.toInt * (a / b).toInt = a.toInt := by
    rw [divides.toInt_div, Int64.toInt_mod]
    exact Int.tmod_add_mul_tdiv _ _
  obtain ⟨smaller, above, below⟩ := divides.toInt_mod_bounds
  have zero : a % b = 0 ↔ (a % b).toInt = 0 := by rw [← Int64.toInt_inj, Int64.toInt_zero]
  have negative (x : Int64) : x < 0 ↔ x.toInt < 0 := by rw [Int64.lt_iff_toInt_lt, Int64.toInt_zero]
  -- the remainder has the sign of the dividend, so both are corrected together
  have together : a % b ≠ 0 ∧ ¬(a % b < 0 ↔ b < 0) ↔ a % b ≠ 0 ∧ ¬(a < 0 ↔ b < 0) := by
    rw [ne_eq, zero, negative, negative, negative]
    omega
  rw [flooredQuotient, flooredRemainder]
  by_cases correct : a % b ≠ 0 ∧ ¬(a < 0 ↔ b < 0)
  · have signs := (together.mpr correct).2
    rw [if_pos correct, if_pos (together.mpr correct), divides.toInt_sub_one correct.1,
      toInt_add_of_signs signs]
    have rest : (a % b).toInt + b.toInt + b.toInt * ((a / b).toInt - 1) = a.toInt := by
      rw [Int.mul_sub, Int.mul_one]
      omega
    have inexact := mt zero.mpr correct.1
    rw [negative, negative] at signs
    rcases Int.lt_or_gt_of_ne divides.toInt_ne_zero with down | up
    · exact (Int.fdiv_fmod_unique' down).mpr ⟨rest, by omega, by omega⟩
    · exact (Int.fdiv_fmod_unique up).mpr ⟨rest, by omega, by omega⟩
  · rw [if_neg correct, if_neg (mt together.mp correct)]
    rw [← together, ne_eq, zero, negative, negative] at correct
    rcases Int.lt_or_gt_of_ne divides.toInt_ne_zero with down | up
    · exact (Int.fdiv_fmod_unique' down).mpr ⟨law, by omega, by omega⟩
    · exact (Int.fdiv_fmod_unique up).mpr ⟨law, by omega, by omega⟩

theorem divided_cases (part : Int64 → Int64 → Int64) (a b : Int64) :
    b = 0 ∧ divided part a b = dividedByZero ∨
      (a = Int64.minValue ∧ b = -1) ∧ divided part a b = Folded.overflow ∨
      CanDivide a b ∧ divided part a b = .ok (.int (part a b)) := by
  unfold divided
  split
  · exact .inl ⟨‹_›, rfl⟩
  · rename_i divisor
    split
    · exact .inr (.inl ⟨‹_›, rfl⟩)
    · rename_i fits
      exact .inr (.inr ⟨⟨divisor, fits⟩, rfl⟩)

theorem computes_quotient (divisor : b ≠ 0) :
    Computes (divided flooredQuotient a b) (a.toInt.fdiv b.toInt) := by
  obtain ⟨zero, -⟩ | ⟨⟨rfl, rfl⟩, is⟩ | ⟨divides, is⟩ := divided_cases flooredQuotient a b
  · exact absurd zero divisor
  · rfl
  · rw [is]
    exact computes_ok divides.floored.1.symm

theorem divided_raises_iff (part : Int64 → Int64 → Int64) :
    (∃ message, divided part a b = Folded.raise "ZeroDivisionError" message) ↔ b = 0 := by
  constructor
  · rintro ⟨message, raises⟩
    obtain ⟨zero, -⟩ | ⟨-, is⟩ | ⟨-, is⟩ := divided_cases part a b
    · exact zero
    · cases is.symm.trans raises
    · cases is.symm.trans raises
  · rintro rfl
    exact ⟨_, if_pos rfl⟩

/-- Whenever there are a quotient and a remainder, they make up the dividend, and the remainder lies
between zero and the divisor. -/
theorem divided_law {q r : Int64} (quotient : divided flooredQuotient a b = .ok (.int q))
    (remainder : divided flooredRemainder a b = .ok (.int r)) :
    a.toInt = b.toInt * q.toInt + r.toInt ∧
      (0 ≤ r.toInt ∧ r.toInt < b.toInt ∨ b.toInt < r.toInt ∧ r.toInt ≤ 0) := by
  obtain ⟨-, is⟩ | ⟨-, is⟩ | ⟨divides, is⟩ := divided_cases flooredQuotient a b
  · cases is.symm.trans quotient
  · cases is.symm.trans quotient
  · obtain ⟨-, other⟩ | ⟨-, other⟩ | ⟨-, other⟩ := divided_cases flooredRemainder a b
    · cases other.symm.trans remainder
    · cases other.symm.trans remainder
    · cases is.symm.trans quotient
      cases other.symm.trans remainder
      rcases Int.lt_or_gt_of_ne divides.toInt_ne_zero with down | up
      · have := (Int.fdiv_fmod_unique' down).mp divides.floored
        omega
      · have := (Int.fdiv_fmod_unique up).mp divides.floored
        omega

/-! Powers. -/

theorem pow_neg_one (n : Nat) : Int.pow (-1) n = if n % 2 = 0 then 1 else -1 := by
  induction n with
  | zero => rfl
  | succ n ih =>
    have step : Int.pow (-1) (n + 1) = Int.pow (-1) n * -1 := Int.pow_succ ..
    rw [step, ih]
    split <;> split <;> omega

theorem computes_powered (a : Int) (n : Nat) : Computes (powered a n) (Int.pow a n) := by
  unfold powered
  split
  · exact computes_fitted _
  · rename_i large
    split
    · rename_i same
      have stays : Int.pow a n = a := by
        rcases same with rfl | rfl
        · exact Int.zero_pow (by omega)
        · exact Int.one_pow
      rw [stays]
      exact computes_fitted a
    · split
      · rename_i unit
        rw [unit, pow_neg_one]
        exact computes_fitted _
      · -- the power has at least as many bits as the exponent says
        have size : 2 ^ 64 ≤ (Int.pow a n).natAbs := by
          calc 2 ^ 64 ≤ 2 ^ n := Nat.pow_le_pow_right Nat.two_pos (by omega)
            _ ≤ a.natAbs ^ n := Nat.pow_le_pow_left (by omega) n
            _ = (Int.pow a n).natAbs := (Int.natAbs_pow a n).symm
        have beyond : ¬Fits (Int.pow a n) := by
          unfold Fits
          omega
        rw [Computes, if_neg beyond]

/-! All operations. -/

/-- What the operations on the integers `a` and `b` come to. -/
structure FoldsExactly (binary unary : Primitive → Folded Value) (a b : Int64) : Prop where
  add : Computes (binary .add) (a.toInt + b.toInt)
  sub : Computes (binary .sub) (a.toInt - b.toInt)
  mul : Computes (binary .mul) (a.toInt * b.toInt)
  minus : Computes (unary .minus) (-a.toInt)
  abs : Computes (unary .abs) a.toInt.natAbs
  succ : Computes (unary .succ) (a.toInt + 1)
  div : b ≠ 0 → Computes (binary .div) (a.toInt.fdiv b.toInt)
  mod : CanDivide a b → ∃ m : Int64, m.toInt = a.toInt.fmod b.toInt ∧ binary .mod = .ok (.int m)
  /-- The remainder is refused with the quotient that does not fit. -/
  mod_refused : a = Int64.minValue ∧ b = -1 → binary .mod = Folded.overflow
  law : ∀ q r : Int64, binary .div = .ok (.int q) → binary .mod = .ok (.int r) →
    a.toInt = b.toInt * q.toInt + r.toInt ∧
      (0 ≤ r.toInt ∧ r.toInt < b.toInt ∨ b.toInt < r.toInt ∧ r.toInt ≤ 0)
  by_zero : ∀ p ∈ [Primitive.div, Primitive.mod],
    (∃ message, binary p = Folded.raise "ZeroDivisionError" message) ↔ b = 0
  pow : 0 ≤ b.toInt → b.toInt < UInt32.size → Computes (binary .pow) (Int.pow a.toInt b.toInt.toNat)
  /-- Exponents that are negative or have more than 32 bits are not tried. -/
  pow_refused : b.toInt < 0 ∨ UInt32.size ≤ b.toInt → ∃ reason, binary .pow = Folded.refuse reason
  /-- No step on the way to the quotient and the remainder wraps around. -/
  steps : CanDivide a b → (a / b).toInt = a.toInt.tdiv b.toInt ∧ (a % b).toInt = a.toInt.tmod b.toInt ∧
    (a % b ≠ 0 → (a / b - 1).toInt = (a / b).toInt - 1) ∧
    (¬(a % b < 0 ↔ b < 0) → (a % b + b).toInt = (a % b).toInt + b.toInt)

/-- Folding is exact for all integers, whatever other arguments a call has. -/
theorem eval_integers_exact (c : ClassTable) (a b : Int64) (rest args : List Value) :
    FoldsExactly (fun p => p.eval c (.int a) (.int b :: rest)) (fun p => p.eval c (.int a) args) a b where
  add := computes_fitted _
  sub := computes_fitted _
  mul := computes_fitted _
  minus := computes_fitted _
  abs := computes_fitted _
  succ := computes_fitted _
  div := computes_quotient
  mod divides := by
    obtain ⟨zero, -⟩ | ⟨extreme, -⟩ | ⟨-, is⟩ := divided_cases flooredRemainder a b
    · exact absurd zero divides.divisor
    · exact absurd extreme divides.fits
    · exact ⟨_, divides.floored.2.symm, is⟩
  mod_refused := by
    rintro ⟨rfl, rfl⟩
    rfl
  law _ _ := divided_law
  by_zero := by
    rintro p (_ | ⟨_, _ | ⟨_, ⟨⟩⟩⟩)
    · exact divided_raises_iff flooredQuotient
    · exact divided_raises_iff flooredRemainder
  pow low high := by
    have tried : power (.int a) (.int b :: rest) = powered a.toInt b.toInt.toNat :=
      (if_neg (Int.not_lt.mpr low)).trans (if_neg (Int.not_le.mpr high))
    change Computes (power (.int a) (.int b :: rest)) _
    rw [tried]
    exact computes_powered _ _
  pow_refused := by
    rintro (low | high)
    · exact ⟨_, if_pos low⟩
    · have nonneg : ¬b.toInt < 0 := by
        rw [show (UInt32.size : Int) = 4294967296 from rfl] at high
        omega
      exact ⟨_, (if_neg nonneg).trans (if_pos high)⟩
  steps divides := ⟨divides.toInt_div, Int64.toInt_mod a b, divides.toInt_sub_one, toInt_add_of_signs⟩

/-! Ranges. -/

/-- Counting from one integer up to another meets every integer between them. -/
theorem integersFrom_spec (first final : Int64) :
    ∃ items : List Int64,
      integersFrom first.toInt (final.toInt - first.toInt + 1).toNat = items.map Value.int ∧
      items.Pairwise (fun x y => x.toInt < y.toInt) ∧
      ∀ x, x ∈ items ↔ first.toInt ≤ x.toInt ∧ x.toInt ≤ final.toInt := by
  generalize count : (final.toInt - first.toInt + 1).toNat = n
  have counted {i : Nat} (small : i ∈ List.range n) :
      (Int64.ofInt (first.toInt + i)).toInt = first.toInt + i := by
    have low := (fits_toInt first).1
    have high := (fits_toInt final).2
    rw [List.mem_range] at small
    exact Int64.toInt_ofInt.trans (Fits.bmod_eq ⟨by omega, by omega⟩)
  refine ⟨(List.range n).map fun i => Int64.ofInt (first.toInt + (i : Nat)), ?_, ?_, fun x => ?_⟩
  · rw [List.map_map]
    rfl
  · refine List.pairwise_map.mpr (List.pairwise_lt_range.imp_of_mem fun in_x in_y less => ?_)
    rw [counted in_x, counted in_y]
    omega
  · rw [List.mem_map]
    constructor
    · rintro ⟨i, small, rfl⟩
      rw [counted small]
      rw [List.mem_range] at small
      omega
    · rintro ⟨low, high⟩
      have small : (x.toInt - first.toInt).toNat ∈ List.range n := by
        rw [List.mem_range]
        omega
      refine ⟨_, small, Int64.toInt_inj.mp ?_⟩
      rw [counted small]
      omega

/-- A range gives its integers in ascending order, or is refused because there are too many. -/
theorem rangeItems_exact {start stop : Int64} {exclusive : Bool}
    (above : exclusive = true → stop ≠ Int64.minValue) :
    (∃ items : List Int64,
      rangeItems (.range (.int start) (.int stop) exclusive) = .ok (.array (items.map .int)) ∧
      items.Pairwise (fun x y => x.toInt < y.toInt) ∧
      ∀ x, x ∈ items ↔ start.toInt ≤ x.toInt ∧
        if exclusive then x.toInt < stop.toInt else x.toInt ≤ stop.toInt) ∨
    rangeItems (.range (.int start) (.int stop) exclusive) = Folded.refuse "range too large" ∧
      65537 < stop.toInt - start.toInt + if exclusive then 0 else 1 := by
  obtain ⟨final, is_final, last⟩ : ∃ final : Int64, lastItem stop exclusive = .ok final ∧
      final.toInt = stop.toInt - if exclusive then 1 else 0 := by
    cases exclusive with
    | false => exact ⟨stop, rfl, (Int.sub_zero _).symm⟩
    | true =>
      refine ⟨stop - 1, if_neg (above rfl), ?_⟩
      have least : stop.toInt ≠ -9223372036854775808 := fun least =>
        above rfl (Int64.toInt_inj.mp least)
      obtain ⟨low, high⟩ := fits_toInt stop
      rw [if_pos rfl, Int64.toInt_sub, Int64.toInt_one]
      exact Fits.bmod_eq ⟨by omega, by omega⟩
  have unfolded : rangeItems (.range (.int start) (.int stop) exclusive) =
      if maxItems < final.toInt - start.toInt then Folded.refuse "range too large"
      else .ok (.array (integersFrom start.toInt (final.toInt - start.toInt + 1).toNat)) := by
    change lastItem stop exclusive >>= _ = _
    rw [is_final]
    rfl
  rw [unfolded]
  split
  · rename_i large
    refine .inr ⟨rfl, ?_⟩
    rw [show (maxItems : Int) = 65536 from rfl, last] at large
    cases exclusive with
    | false =>
      rw [if_neg Bool.false_ne_true] at large ⊢
      omega
    | true =>
      rw [if_pos rfl] at large ⊢
      omega
  · obtain ⟨items, are, ascending, all⟩ := integersFrom_spec start final
    refine .inl ⟨items, by rw [are], ascending, fun x => ?_⟩
    rw [all, last]
    cases exclusive with
    | false => rw [if_neg Bool.false_ne_true, if_neg Bool.false_ne_true, Int.sub_zero]
    | true =>
      rw [if_pos rfl, if_pos rfl]
      omega

/-- A range that stops before the least integer has no items, but its last one is looked for without
a check. -/
theorem rangeItems_before_least (start : Int64) :
    rangeItems (.range (.int start) (.int Int64.minValue) true) =
      Folded.abort "attempt to subtract with overflow" := rfl

end ScriptFlow.Core
