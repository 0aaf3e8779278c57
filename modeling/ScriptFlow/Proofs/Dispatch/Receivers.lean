import Mathlib.Data.List.Nodup
import ScriptFlow.Dispatch.Resolution
import ScriptFlow.Proofs.ClassTable.Values

/-! The classes that a receiver is split into. They are the possible classes of its type, each once,
and the receiver type handed on for a class grows with the type that is split. -/

namespace ScriptFlow.Resolver

variable {a : Member}

/-! One class more. -/

variable {k j : ModuleId} {t : Ty} {ks : List (ModuleId × Ty)}

theorem mem_keys_addReceiver :
    j ∈ (addReceiver k t ks).map Prod.fst ↔ j = k ∨ j ∈ ks.map Prod.fst := by
  induction ks with
  | nil => simp [addReceiver]
  | cons e ks ih =>
    unfold addReceiver
    split
    · rename_i same
      simp [same]
    · simp only [List.map_cons, List.mem_cons, ih]
      grind

theorem nodup_addReceiver (distinct : (ks.map Prod.fst).Nodup) :
    ((addReceiver k t ks).map Prod.fst).Nodup := by
  induction ks with
  | nil => simp [addReceiver]
  | cons e ks ih =>
    rw [List.map_cons, List.nodup_cons] at distinct
    unfold addReceiver
    split
    · exact List.nodup_cons.mpr distinct
    · rename_i other
      apply List.nodup_cons.mpr
      constructor
      · intro again
        rcases mem_keys_addReceiver.mp again with same | old
        · exact other same
        · exact distinct.1 old
      · exact ih distinct.2

theorem exists_mem_addReceiver :
    (∃ u, (j, u) ∈ addReceiver k t ks ∧ a ∈ u.members) ↔
      (j = k ∧ a ∈ t.members) ∨ ∃ u, (j, u) ∈ ks ∧ a ∈ u.members := by
  induction ks with
  | nil => simp [addReceiver]
  | cons e ks ih =>
    unfold addReceiver
    split
    · rename_i same
      simp only [List.mem_cons, Prod.mk.injEq, or_and_right, exists_or, and_assoc]
      simp [same]
      grind
    · simp only [List.mem_cons, or_and_right, exists_or, ih]
      grind

/-! All classes of a type. -/

/-- The classes that one alternative stands for, with the receiver type of each. -/
def receiversOf (c : ClassTable) (m : Member) : List (ModuleId × Ty) :=
  let ks := c.possibleClasses (.ofMember m)
  ks.map fun k => (k, if ks.length = 1 then .ofMember m else .exact k)

theorem receiverClasses_eq (c : ClassTable) (receiver : Ty) :
    receiverClasses c receiver =
      (receiver.members.flatMap (receiversOf c)).foldl (fun acc p => addReceiver p.1 p.2 acc) [] := by
  unfold receiverClasses
  rw [List.foldl_flatMap]
  congr
  funext acc m
  unfold receiversOf
  rw [List.foldl_map]
  split
  · rename_i k only
    simp [only]
  · rename_i ks several
    have lengthy : (c.possibleClasses (.ofMember m)).length ≠ 1 := by
      intro single
      obtain ⟨k, only⟩ := List.length_eq_one_iff.mp single
      exact several k only
    simp only [lengthy, if_false]

/-- A fold of additions holds all that is added and nothing else. -/
theorem exists_mem_foldl_addReceiver {ps ks : List (ModuleId × Ty)} :
    (∃ u, (j, u) ∈ ps.foldl (fun acc p => addReceiver p.1 p.2 acc) ks ∧ a ∈ u.members) ↔
      (∃ u, (j, u) ∈ ps ∧ a ∈ u.members) ∨ ∃ u, (j, u) ∈ ks ∧ a ∈ u.members := by
  induction ps generalizing ks with
  | nil => simp
  | cons p ps ih =>
    rw [List.foldl_cons, ih, exists_mem_addReceiver]
    simp only [List.mem_cons, or_and_right, exists_or, ← or_assoc]
    grind

theorem mem_keys_foldl_addReceiver {ps ks : List (ModuleId × Ty)} :
    j ∈ (ps.foldl (fun acc p => addReceiver p.1 p.2 acc) ks).map Prod.fst ↔
      j ∈ ps.map Prod.fst ∨ j ∈ ks.map Prod.fst := by
  induction ps generalizing ks with
  | nil => simp
  | cons p ps ih =>
    rw [List.foldl_cons, ih, mem_keys_addReceiver, List.map_cons, List.mem_cons]
    grind

theorem mem_keys_receiverClasses {c : ClassTable} {receiver : Ty} :
    j ∈ (receiverClasses c receiver).map Prod.fst ↔ j ∈ c.possibleClasses receiver := by
  rw [receiverClasses_eq, mem_keys_foldl_addReceiver, ClassTable.mem_possibleClasses]
  simp [receiversOf, ClassTable.mem_possibleClasses, Ty.ofMember, Ty.members]

theorem nodup_receiverClasses (c : ClassTable) (receiver : Ty) :
    ((receiverClasses c receiver).map Prod.fst).Nodup := by
  rw [receiverClasses_eq]
  suffices kept : ∀ (ps ks : List (ModuleId × Ty)), (ks.map Prod.fst).Nodup →
      ((ps.foldl (fun acc p => addReceiver p.1 p.2 acc) ks).map Prod.fst).Nodup from
    kept _ [] List.nodup_nil
  intro ps
  induction ps with
  | nil => exact fun _ distinct => distinct
  | cons p ps ih => exact fun ks distinct => ih _ (nodup_addReceiver distinct)

/-- The receiver type of a class covers what each alternative of the type brings to it. -/
theorem exists_mem_receiverClasses {c : ClassTable} {receiver : Ty} :
    (∃ u, (j, u) ∈ receiverClasses c receiver ∧ a ∈ u.members) ↔
      ∃ m ∈ receiver.members, ∃ u, (j, u) ∈ receiversOf c m ∧ a ∈ u.members := by
  rw [receiverClasses_eq, exists_mem_foldl_addReceiver]
  simp only [List.mem_flatMap, List.not_mem_nil, false_and, exists_false, or_false]
  constructor
  · rintro ⟨u, ⟨m, m_in, u_in⟩, a_in⟩
    exact ⟨m, m_in, u, u_in, a_in⟩
  · rintro ⟨m, m_in, u, u_in, a_in⟩
    exact ⟨u, ⟨m, m_in, u_in⟩, a_in⟩

theorem mem_members_of_recorded {c : ClassTable} {receiver t : Ty} {m : Member}
    (recorded : (j, t) ∈ receiverClasses c receiver) (alternative : m ∈ receiver.members)
    (brought : ∃ u, (j, u) ∈ receiversOf c m ∧ a ∈ u.members) : a ∈ t.members := by
  obtain ⟨u, u_in, a_in⟩ := exists_mem_receiverClasses.mpr ⟨m, alternative, brought⟩
  have once := List.inj_on_of_nodup_map (nodup_receiverClasses c receiver) recorded u_in rfl
  cases once
  exact a_in

/-! Filing the classes. Each of them comes once, so no target takes in another one. -/

section

variable {res : Resolution} {cls : ModuleId} {receiver : Ty} {found : Option MethodId}

def place (res : Resolution) (cls : ModuleId) (receiver : Ty) (visible : MethodId → Bool)
    (found : Option MethodId) : Resolution :=
  match found with
  | none => { res with missing := res.missing ++ [cls] }
  | some m =>
    if visible m then { res with accessible := res.accessible ++ [⟨cls, receiver, m⟩] }
    else { res with concealed := res.concealed ++ [⟨cls, receiver, m⟩] }

theorem addTarget_of_new {t : Target} {us : List Target} (new : ∀ u ∈ us, u.cls ≠ t.cls) :
    addTarget t us = us ++ [t] := by
  induction us with
  | nil => rfl
  | cons u us ih =>
    obtain ⟨other, rest⟩ := List.forall_mem_cons.mp new
    rw [addTarget, if_neg fun same => other same.2, ih rest, List.cons_append]

theorem file_of_new {visible : MethodId → Bool}
    (new : ∀ t ∈ res.accessible ++ res.concealed, t.cls ≠ cls) :
    file res cls receiver visible found = place res cls receiver visible found := by
  obtain ⟨open_new, hidden_new⟩ := List.forall_mem_append.mp new
  cases found with
  | none => rfl
  | some m => rw [file, place, addTarget_of_new open_new, addTarget_of_new hidden_new]

theorem mem_place {visible : MethodId → Bool} {t : Target}
    (member : t ∈ (place res cls receiver visible found).accessible ++
      (place res cls receiver visible found).concealed) :
    t ∈ res.accessible ++ res.concealed ∨ t.cls = cls := by
  unfold place at member
  split at member
  · exact .inl member
  · split at member <;> grind

theorem foldl_file (visible : ModuleId → MethodId → Bool) (found : ModuleId → Option MethodId)
    (distinct : (ks.map Prod.fst).Nodup)
    (new : ∀ t ∈ res.accessible ++ res.concealed, t.cls ∉ ks.map Prod.fst) :
    ks.foldl (fun res k => file res k.1 k.2 (visible k.1) (found k.1)) res =
      ks.foldl (fun res k => place res k.1 k.2 (visible k.1) (found k.1)) res := by
  induction ks generalizing res with
  | nil => rfl
  | cons k ks ih =>
    rw [List.map_cons] at distinct new
    obtain ⟨once, distinct⟩ := List.nodup_cons.mp distinct
    rw [List.foldl_cons, List.foldl_cons,
      file_of_new fun t member same => new t member (same ▸ List.mem_cons_self)]
    refine ih distinct fun t member => ?_
    rcases mem_place member with before | here
    · exact fun later => new t before (.tail _ later)
    · rwa [here]

theorem resolveSuper_eq (r : Resolver) (owner : ModuleId) (name : String)
    (known : receiver.isTop = false) : r.resolveSuper receiver owner name =
      (receiverClasses r.table receiver).foldl
        (fun res k => place res k.1 k.2 (fun _ => true)
          ((ancestorsAfter r.table k.1 owner).findSome? fun a =>
            (r.table.record a).methods.get? name)) default := by
  rw [resolveSuper, known, if_neg Bool.false_ne_true]
  exact foldl_file (fun _ _ => true)
    (fun k => (ancestorsAfter r.table k owner).findSome? fun a =>
      (r.table.record a).methods.get? name) (nodup_receiverClasses ..) fun _ none => nomatch none

end

end ScriptFlow.Resolver
