import Mathlib.Data.List.Basic
import ScriptFlow.Dict

/-! Looking up what was put into a finite map, and numbers put into ascending lists. -/

namespace ScriptFlow

namespace Dict

variable {ns : List Nat}
variable {κ α : Type} [DecidableEq κ] [LT κ] [DecidableLT κ] [Std.Irrefl (α := κ) (· < ·)]
  [Std.Trichotomous (α := κ) (· < ·)]

theorem get?_put (d : Dict κ α) (k j : κ) (a : α) :
    (d.put k a).get? j = if j = k then some a else d.get? j := by
  obtain ⟨es⟩ := d
  simp only [put, get?]
  induction es with
  | nil =>
    rw [place, List.lookup_cons, List.lookup_nil]
    split <;> simp_all
  | cons e es ih =>
    rw [place]
    split
    · rw [List.lookup_cons]
      split <;> simp_all
    · rename_i not_before
      split
      · rename_i before
        have other : k ≠ e.1 := by
          rintro rfl
          exact Std.Irrefl.irrefl (r := (· < ·)) _ before
        rw [List.lookup_cons, ih, List.lookup_cons]
        split <;> grind
      · rename_i not_after
        have eq : k = e.1 := Std.Trichotomous.trichotomous (r := (· < ·)) _ _ not_before not_after
        rw [List.lookup_cons, List.lookup_cons, eq]
        split <;> simp_all

end Dict

theorem mem_insertNat {m n : Nat} : m ∈ insertNat n ns ↔ m = n ∨ m ∈ ns := by
  induction ns with
  | nil => simp [insertNat]
  | cons k ns ih =>
    unfold insertNat
    grind

theorem mem_foldl_insertNat {m : Nat} {vs : List Nat} :
    m ∈ vs.foldl (fun ns v => insertNat v ns) ns ↔ m ∈ vs ∨ m ∈ ns := by
  induction vs generalizing ns with
  | nil => simp
  | cons v vs ih =>
    rw [List.foldl_cons, ih, mem_insertNat, List.mem_cons]
    grind

theorem insertNat_sorted {n : Nat} (sorted : ns.Pairwise (· < ·)) :
    (insertNat n ns).Pairwise (· < ·) := by
  induction ns with
  | nil => simp [insertNat]
  | cons k ns ih =>
    rw [List.pairwise_cons] at sorted
    unfold insertNat
    split
    · refine List.pairwise_cons.mpr ⟨fun m member => ?_, List.pairwise_cons.mpr sorted⟩
      rcases List.mem_cons.mp member with rfl | later
      · assumption
      · exact Nat.lt_trans (by assumption) (sorted.1 m later)
    · split
      · refine List.pairwise_cons.mpr ⟨fun m member => ?_, ih sorted.2⟩
        rcases mem_insertNat.mp member with rfl | old
        · assumption
        · exact sorted.1 m old
      · exact List.pairwise_cons.mpr sorted

theorem foldl_insertNat_sorted {vs : List Nat} (sorted : ns.Pairwise (· < ·)) :
    (vs.foldl (fun ns v => insertNat v ns) ns).Pairwise (· < ·) := by
  induction vs generalizing ns with
  | nil => exact sorted
  | cons v vs ih => exact ih (insertNat_sorted sorted)

end ScriptFlow
