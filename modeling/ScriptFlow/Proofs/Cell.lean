import ScriptFlow.Cell

/-! Knowledge about a value is ordered, and joining goes up to the least cell that covers both. -/

namespace ScriptFlow.Cell

variable {a b c : Cell}

theorem le_refl (a : Cell) : a.le a = true := by
  cases a <;> simp [le]

theorem le_trans (first : a.le b = true) (second : b.le c = true) : a.le c = true := by
  cases a with
  | undefined => rfl
  | known v =>
    cases b with
    | undefined => cases first
    | known w =>
      cases eq_of_beq first
      exact second
    | varying =>
      cases c with
      | varying => rfl
      | _ => cases second
  | varying =>
    cases b with
    | varying => exact second
    | _ => cases first

theorem le_antisymm (first : a.le b = true) (second : b.le a = true) : a = b := by
  cases a with
  | undefined =>
    cases b with
    | undefined => rfl
    | _ => cases second
  | known v =>
    cases b with
    | known w => rw [eq_of_beq first]
    | undefined => cases first
    | varying => cases second
  | varying =>
    cases b with
    | varying => rfl
    | _ => cases first

theorem le_join_left (a b : Cell) : a.le (a.join b) = true := by
  cases a with
  | undefined => rfl
  | known v =>
    cases b with
    | undefined => exact le_refl _
    | known w =>
      rw [join]
      split
      · exact le_refl _
      · rfl
    | varying => rfl
  | varying => cases b <;> rfl

theorem le_join_right (a b : Cell) : b.le (a.join b) = true := by
  cases a with
  | undefined => exact le_refl b
  | known v =>
    cases b with
    | undefined => rfl
    | known w =>
      rw [join]
      split
      · rename_i same
        rw [same]
        exact le_refl _
      · rfl
    | varying => rfl
  | varying => cases b <;> rfl

theorem join_le (left : a.le c = true) (right : b.le c = true) : (a.join b).le c = true := by
  cases a with
  | undefined => exact right
  | known v =>
    cases b with
    | undefined => exact left
    | known w =>
      rw [join]
      split
      · exact left
      · rename_i different
        cases c with
        | varying => rfl
        | known u => exact absurd ((eq_of_beq left).trans (eq_of_beq right).symm) different
        | undefined => cases left
    | varying => exact right
  | varying =>
    cases b <;> exact left

theorem join_eq_left_iff : a.join b = a ↔ b.le a = true := by
  constructor
  · intro same
    rw [← same]
    exact le_join_right a b
  · intro below
    exact le_antisymm (join_le (le_refl a) below) (le_join_left a b)

end ScriptFlow.Cell
