import Mathlib.Data.List.Basic
import ScriptFlow.FlowGraph.Instr

/-! What renaming does to the parts of an instruction. -/

namespace ScriptFlow

variable {x : Instr}

def Operand.mapBinding (f : BindingId → BindingId) : Operand → Operand
  | .binding v => .binding (f v)
  | .const c => .const c

namespace Instr

variable (f : BindingId → BindingId)

/-- The instruction with other numbers for blocks and bindings. -/
def renumber (block : BlockId → BlockId) (binding : BindingId → BindingId) (x : Instr) : Instr :=
  (((x.mapTarget binding).mapSlots (Operand.mapBinding binding)).mapPhiValues binding).mapBlocks
    block

/-- The bindings that an instruction reads and writes are among the first `n`. -/
structure Within (n : Nat) (x : Instr) : Prop where
  operands : ∀ v : Nat, v ∈ x.operands → v < n
  target : ∀ t : Nat, x.target? = some t → t < n

theorem Within.mono {n m : Nat} (within : x.Within n) (le : n ≤ m) : x.Within m :=
  ⟨fun v h => Nat.lt_of_lt_of_le (within.operands v h) le,
    fun t h => Nat.lt_of_lt_of_le (within.target t h) le⟩

@[simp] theorem operands_mapBlocks (f : BlockId → BlockId) (x : Instr) :
    (x.mapBlocks f).operands = x.operands := by
  cases x <;> simp [mapBlocks, operands, slots]

@[simp] theorem target?_mapBlocks (f : BlockId → BlockId) (x : Instr) :
    (x.mapBlocks f).target? = x.target? := by
  cases x <;> rfl

@[simp] theorem isPhi_mapBlocks (f : BlockId → BlockId) (x : Instr) :
    (x.mapBlocks f).isPhi = x.isPhi := by
  cases x <;> rfl

theorem Within.mapBlocks {n : Nat} (within : x.Within n)
    (f : BlockId → BlockId) : (x.mapBlocks f).Within n :=
  ⟨by simpa using within.operands, by simpa using within.target⟩

/-! Operands. -/

@[simp] theorem slots_mapSlots (f : Operand → Operand) (x : Instr) :
    (x.mapSlots f).slots = x.slots.map f := by
  cases x with
  | call s => cases h : s.block <;> simp [mapSlots, slots, CallSite.operands, h]
  | param t p fr => cases p <;> rfl
  | declare d => cases d <;> rfl
  | _ => rfl

@[simp] theorem slots_mapTarget (x : Instr) : (x.mapTarget f).slots = x.slots := by
  cases x <;> rfl

@[simp] theorem slots_mapPhiValues (x : Instr) : (x.mapPhiValues f).slots = x.slots := by
  cases x <;> rfl

@[simp] theorem slots_mapBlocks (f : BlockId → BlockId) (x : Instr) :
    (x.mapBlocks f).slots = x.slots := by
  cases x <;> rfl

theorem mapSlots_congr {f h : Operand → Operand} (same : ∀ o ∈ x.slots, f o = h o) :
    x.mapSlots f = x.mapSlots h := by
  cases x with
  | call s =>
    simp only [slots, CallSite.operands, List.cons_append, List.mem_cons, List.mem_append,
      Option.mem_toList] at same
    have args : s.args.map f = s.args.map h :=
      List.map_congr_left fun o member => same o (.inr (.inl member))
    have block : s.block.map f = s.block.map h :=
      Option.map_congr fun o member => same o (.inr (.inr member))
    simp only [mapSlots, same s.receiver (.inl rfl), args, block]
  | param t p fr => cases p <;> simp_all [mapSlots, slots, Param.operands, Param.mapOperands]
  | declare d => cases d <;> simp_all [mapSlots, slots]
  | _ => simp_all [mapSlots, slots]

theorem operands_of_plain (plain : x.isPhi = false) :
    x.operands = x.slots.filterMap (·.binding?) := by
  cases x <;> first | rfl | cases plain

theorem mem_operands_of_plain (plain : x.isPhi = false) {v : Nat} :
    v ∈ x.operands ↔ Operand.binding v ∈ x.slots := by
  rw [operands_of_plain plain, List.mem_filterMap]
  constructor
  · rintro ⟨o, member, eq⟩
    cases o with
    | binding u =>
      cases Option.some.inj eq
      exact member
    | const c => cases eq
  · exact fun member => ⟨.binding v, member, rfl⟩

/-! Targets. -/

@[simp] theorem target?_mapSlots (f : Operand → Operand) (x : Instr) :
    (x.mapSlots f).target? = x.target? := by
  cases x with
  | declare d => cases d <;> rfl
  | _ => rfl

@[simp] theorem target?_mapTarget (x : Instr) : (x.mapTarget f).target? = x.target?.map f := by
  cases x <;> rfl

theorem mapTarget_id (x : Instr) : x.mapTarget id = x := by
  cases x with
  | call s => simp [mapTarget]
  | _ => rfl

@[simp] theorem target?_mapPhiValues (x : Instr) : (x.mapPhiValues f).target? = x.target? := by
  cases x <;> rfl

/-! Phis. -/

@[simp] theorem isPhi_mapSlots (f : Operand → Operand) (x : Instr) :
    (x.mapSlots f).isPhi = x.isPhi := by
  cases x with
  | declare d => cases d <;> rfl
  | _ => rfl

@[simp] theorem isPhi_mapTarget (x : Instr) : (x.mapTarget f).isPhi = x.isPhi := by
  cases x <;> rfl

@[simp] theorem isPhi_mapPhiValues (x : Instr) : (x.mapPhiValues f).isPhi = x.isPhi := by
  cases x <;> rfl

theorem eq_phi (phi : x.isPhi = true) : ∃ t os, x = .phi t os := by
  cases x with
  | phi t os => exact ⟨t, os, rfl⟩
  | _ => cases phi

/-! New numbers. -/

section Renumber

variable (β : BlockId → BlockId) (ν : BindingId → BindingId)

@[simp] theorem target?_renumber (x : Instr) : (x.renumber β ν).target? = x.target?.map ν := by
  simp [renumber]

@[simp] theorem isPhi_renumber (x : Instr) : (x.renumber β ν).isPhi = x.isPhi := by
  simp [renumber]

@[simp] theorem slots_renumber (x : Instr) :
    (x.renumber β ν).slots = x.slots.map (Operand.mapBinding ν) := by
  simp [renumber]

theorem renumber_phi (t : BindingId) (os : List (BlockId × BindingId)) :
    (Instr.phi t os).renumber β ν = .phi (ν t) (os.map fun o => (β o.1, ν o.2)) := by
  simp [renumber, mapTarget, mapSlots, mapPhiValues, mapBlocks]

theorem renumber_renumber (β' : BlockId → BlockId) (ν' : BindingId → BindingId) (x : Instr) :
    (x.renumber β ν).renumber β' ν' = x.renumber (β' ∘ β) (ν' ∘ ν) := by
  have operand (o : Operand) : (o.mapBinding ν).mapBinding ν' = o.mapBinding (ν' ∘ ν) := by
    cases o <;> rfl
  cases x with
  | call s => simp [renumber, mapTarget, mapSlots, mapPhiValues, mapBlocks, operand, Function.comp_def]
  | param t p fr =>
    cases p <;> simp [renumber, mapTarget, mapSlots, mapPhiValues, mapBlocks, operand, Param.mapOperands]
  | declare d => cases d <;> simp [renumber, mapTarget, mapSlots, mapPhiValues, mapBlocks, operand]
  | _ => simp [renumber, mapTarget, mapSlots, mapPhiValues, mapBlocks, operand]

theorem renumber_id (x : Instr) : x.renumber id id = x := by
  have operand : Operand.mapBinding id = id := by
    funext o
    cases o <;> rfl
  cases x with
  | call s => simp [renumber, mapTarget, mapSlots, mapPhiValues, mapBlocks, operand]
  | param t p fr =>
    cases p <;> simp [renumber, mapTarget, mapSlots, mapPhiValues, mapBlocks, operand, Param.mapOperands]
  | declare d => cases d <;> simp [renumber, mapTarget, mapSlots, mapPhiValues, mapBlocks, operand]
  | _ => simp [renumber, mapTarget, mapSlots, mapPhiValues, mapBlocks, operand]

/-- Forgetting which bindings an instruction mentions undoes renaming them. -/
theorem renumber_const_mapSlots {n : BindingId} {f : BindingId → BindingId} {F : Operand → Operand}
    (same : ∀ o, (F o).mapBinding (fun _ => n) = o.mapBinding fun _ => n)
    (plain : x.isPhi = false) :
    ((x.mapSlots F).mapTarget f).renumber β (fun _ => n) = x.renumber β fun _ => n := by
  cases x with
  | phi t os => cases plain
  | call s => simp [renumber, mapTarget, mapSlots, mapPhiValues, mapBlocks, same, Function.comp_def]
  | param t p fr =>
    cases p <;> simp [renumber, mapTarget, mapSlots, mapPhiValues, mapBlocks, same, Param.mapOperands]
  | declare d => cases d <;> simp [renumber, mapTarget, mapSlots, mapPhiValues, mapBlocks, same]
  | _ => simp [renumber, mapTarget, mapSlots, mapPhiValues, mapBlocks, same]

@[simp] theorem operands_renumber (x : Instr) : (x.renumber β ν).operands = x.operands.map ν := by
  cases phi : x.isPhi with
  | true =>
    obtain ⟨t, os, rfl⟩ := eq_phi phi
    simp [renumber_phi, operands]
  | false =>
    rw [operands_of_plain (by simpa using phi), operands_of_plain phi, slots_renumber,
      List.filterMap_map, List.map_filterMap]
    refine List.filterMap_congr fun o _ => ?_
    cases o <;> rfl

def blocks : Instr → List BlockId
  | .jump b => [b]
  | .branch _ yes no => [yes, no]
  | .phi _ os => os.map (·.1)
  | _ => []

@[simp] theorem blocks_renumber (x : Instr) : (x.renumber β ν).blocks = x.blocks.map β := by
  cases x with
  | phi t os => simp [renumber_phi, blocks]
  | declare d => cases d <;> rfl
  | _ => rfl

end Renumber

end Instr

end ScriptFlow
