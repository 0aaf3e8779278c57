import ScriptFlow.Proofs.Lowering.Stubs

/-! What stubs say about the blocks of a graph, and that writing to one of them leaves the others as
they are. -/

namespace ScriptFlow

namespace FlowGraph

/-- Only instructions that were made are listed in blocks. -/
def Placed (g : FlowGraph) : Prop := ∀ b, ∀ i : Nat, i ∈ (g.block b).instrs → i < g.instrs.size

theorem code_outside (g : FlowGraph) {b : Nat} (outside : g.blocks.size ≤ b) : g.code b = [] := by
  rw [code, g.block_outside outside]
  rfl

theorem succs_outside (g : FlowGraph) {b : Nat} (outside : g.blocks.size ≤ b) :
    (g.block b).succs = [] := by
  rw [g.block_outside outside]
  rfl

theorem code_pushInstr {g : FlowGraph} (placed : g.Placed) (b c : Nat) (x : Instr) :
    (g.pushInstr b x).code c =
      if b = c ∧ b < g.blocks.size then g.code b ++ [x] else g.code c := by
  have old (d : Nat) : (g.block d).instrs.map (g.pushInstr b x).instr = g.code d := by
    refine List.map_congr_left fun i member => ?_
    rw [instr_pushInstr, if_neg (Nat.ne_of_lt (placed d i member))]
  unfold code
  rw [block_pushInstr]
  split
  · rw [List.map_append, old, List.map_singleton, instr_pushInstr, if_pos rfl]
    rfl
  · exact old c

theorem Placed.pushInstr {g : FlowGraph} (placed : g.Placed) (b : Nat) (x : Instr) :
    (g.pushInstr b x).Placed := by
  intro c i member
  rw [instrs_size_pushInstr]
  rw [block_pushInstr] at member
  split at member
  · rcases List.mem_append.mp member with old | new
    · exact Nat.lt_succ_of_lt (placed b i old)
    · rw [List.mem_singleton.mp new]
      exact Nat.lt_succ_self _
  · exact Nat.lt_succ_of_lt (placed c i member)

@[simp] theorem code_addEdge (g : FlowGraph) (a t c : Nat) (f : EdgeFlags) :
    (g.addEdge a t f).code c = g.code c := by
  have same := instr_congr (g.instrs_array_addEdge a t f)
  simp [code, List.map_congr_left fun i _ => same i]

theorem Placed.addEdge {g : FlowGraph} (placed : g.Placed) (a t : Nat) (f : EdgeFlags) :
    (g.addEdge a t f).Placed := by
  intro c i member
  rw [instrs_addEdge] at member
  rw [instrs_array_addEdge]
  exact placed c i member

@[simp] theorem succs_pushBlock (g : FlowGraph) (name : String) (c : Nat) :
    ((g.pushBlock name).2.block c).succs = (g.block c).succs :=
  g.block_field_pushBlock (·.succs) name rfl c

@[simp] theorem code_pushBlock (g : FlowGraph) (name : String) (c : Nat) :
    (g.pushBlock name).2.code c = g.code c := by
  have same := g.block_field_pushBlock (·.instrs) name rfl c
  exact congrArg (List.map g.instr) same

theorem Placed.pushBlock {g : FlowGraph} (placed : g.Placed) (name : String) :
    (g.pushBlock name).2.Placed := by
  intro c i member
  rw [g.block_field_pushBlock (·.instrs) name rfl c] at member
  exact placed c i member

end FlowGraph

namespace Lowering

theorem mem_link {es : List (Nat × EdgeFlags)} {t u : Nat} {f : EdgeFlags}
    (member : u ∈ (FlowGraph.link es t f).map (·.1)) : u ∈ es.map (·.1) ∨ u = t := by
  unfold FlowGraph.link at member
  split at member
  · obtain ⟨e, in_map, rfl⟩ := List.mem_map.mp member
    obtain ⟨d, old, rfl⟩ := List.mem_map.mp in_map
    left
    split
    · exact List.mem_map.mpr ⟨d, old, rfl⟩
    · exact List.mem_map.mpr ⟨d, old, rfl⟩
  · simpa using member

/-- The block is as the stub says. -/
def Stub.Held (g : FlowGraph) : Stub → Prop
  | .code b last es =>
    b < g.blocks.size ∧ (g.block b).succs = es ∧
      ∃ before, g.code b = before ++ last.toList ∧ ∀ x ∈ before, x.leaves = false
  | .exit b es =>
    b < g.blocks.size ∧ (g.block b).succs = es ∧ g.code b = [] ∧
      ∃ body, (g.block b).name = body ++ "-Exit"

/-- A block is the same in two graphs, as far as stubs go. -/
structure Unchanged (g h : FlowGraph) (b : Nat) : Prop where
  code : h.code b = g.code b
  succs : (h.block b).succs = (g.block b).succs
  name : (h.block b).name = (g.block b).name

theorem Stub.Held.inside {g : FlowGraph} {x : Stub} (held : x.Held g) : x.block < g.blocks.size := by
  cases x with
  | code b last es => exact held.1
  | exit b es => exact held.1

theorem Stub.Held.unchanged {g h : FlowGraph} {x : Stub} (held : x.Held g)
    (same : Unchanged g h x.block) (size : g.blocks.size ≤ h.blocks.size) : x.Held h := by
  cases x with
  | code b last es =>
    obtain ⟨inside, succs, before, code, plain⟩ := held
    exact ⟨Nat.lt_of_lt_of_le inside size, same.succs.trans succs, before, same.code.trans code, plain⟩
  | exit b es =>
    obtain ⟨inside, succs, empty, body, named⟩ := held
    exact ⟨Nat.lt_of_lt_of_le inside size, same.succs.trans succs, same.code.trans empty, body,
      same.name.trans named⟩

/-- The blocks are different and as the stubs say. -/
structure Holding (g : FlowGraph) (O : List Stub) : Prop where
  placed : g.Placed
  held : ∀ x ∈ O, x.Held g
  distinct : (O.map (·.block)).Nodup

namespace Holding

variable {g h : FlowGraph} {O O' : List Stub} {x y : Stub} {b : Nat}

theorem perm (holding : Holding g O) (moved : O.Perm O') : Holding g O' where
  placed := holding.placed
  held x member := holding.held x (moved.mem_iff.mpr member)
  distinct := (moved.map _).nodup_iff.mp holding.distinct

theorem same (holding : Holding g O) (blocks : h.blocks = g.blocks) (instrs : h.instrs = g.instrs) :
    Holding h O where
  placed := by
    intro b i member
    rw [FlowGraph.block_congr blocks] at member
    rw [instrs]
    exact holding.placed b i member
  held x member := (holding.held x member).unchanged
    ⟨FlowGraph.code_congr blocks instrs _, by rw [FlowGraph.block_congr blocks],
      by rw [FlowGraph.block_congr blocks]⟩ (by rw [blocks])
  distinct := holding.distinct

theorem tail (holding : Holding g (x :: O)) : Holding g O where
  placed := holding.placed
  held y member := holding.held y (by simp [member])
  distinct := (List.nodup_cons.mp holding.distinct).2

theorem apart (holding : Holding g (x :: O)) : ∀ y ∈ O, y.block ≠ x.block := by
  intro y member same
  exact (List.nodup_cons.mp holding.distinct).1 (List.mem_map.mpr ⟨y, member, same⟩)

/-- One stub is written to. -/
theorem write (holding : Holding g (x :: O)) (placed : h.Placed) (held : y.Held h)
    (here : y.block = x.block) (size : g.blocks.size ≤ h.blocks.size)
    (others : ∀ c, c ≠ x.block → Unchanged g h c) : Holding h (y :: O) where
  placed := placed
  held z member := by
    rcases List.mem_cons.mp member with rfl | member
    · exact held
    · exact (holding.held z (by simp [member])).unchanged
        (others _ (holding.apart z member)) size
  distinct := by
    rw [List.map_cons, here]
    exact holding.distinct

end Holding

/-! Elementary changes. -/

section

variable {g : FlowGraph} {O : List Stub} {b : Nat}

theorem unchanged_pushInstr (placed : g.Placed) {c : Nat} (x : Instr) (other : c ≠ b) :
    Unchanged g (g.pushInstr b x) c where
  code := by rw [FlowGraph.code_pushInstr placed, if_neg fun here => other here.1.symm]
  succs := by simp
  name := g.block_field_pushInstr (·.name) (fun _ _ => rfl) b c x

theorem unchanged_addEdge (inside : b < g.blocks.size) (t : Nat) (f : EdgeFlags) {c : Nat}
    (other : c ≠ b) : Unchanged g (g.addEdge b t f) c where
  code := by simp
  succs := by rw [FlowGraph.succs_addEdge g inside, if_neg (Ne.symm other)]
  name := g.block_field_addEdge (·.name) (fun _ _ => rfl) (fun _ _ => rfl) b t c f

theorem unchanged_pushBlock (name : String) {c : Nat} (inside : c < g.blocks.size) :
    Unchanged g (g.pushBlock name).2 c where
  code := by simp
  succs := by simp
  name := by rw [FlowGraph.block_pushBlock, if_neg (Nat.ne_of_lt inside)]

theorem Stub.Held.emit {x : Instr} (placed : g.Placed) (stays : x.leaves = false)
    (held : (Stub.opened b).Held g) : (Stub.opened b).Held (g.pushInstr b x) := by
  obtain ⟨inside, succs, before, code, plain⟩ := held
  refine ⟨by simpa using inside, by simpa using succs, before ++ [x], ?_, ?_⟩
  · rw [FlowGraph.code_pushInstr placed, if_pos ⟨rfl, inside⟩, code]
    simp
  · intro y member
    rcases List.mem_append.mp member with old | new
    · exact plain y old
    · rw [List.mem_singleton.mp new]
      exact stays

theorem Stub.Held.finish {x : Instr} (placed : g.Placed) (held : (Stub.opened b).Held g) :
    (Stub.code b (some x) []).Held (g.pushInstr b x) := by
  obtain ⟨inside, succs, before, code, plain⟩ := held
  refine ⟨by simpa using inside, by simpa using succs, before, ?_, plain⟩
  rw [FlowGraph.code_pushInstr placed, if_pos ⟨rfl, inside⟩, code]
  simp

theorem Stub.Held.link {x : Stub} (held : x.Held g) (t : Nat) (f : EdgeFlags) :
    (x.link t f).Held (g.addEdge x.block t f) := by
  cases x with
  | code b last es =>
    obtain ⟨inside, succs, before, code, plain⟩ := held
    refine ⟨by simpa using inside, ?_, before, by simpa using code, plain⟩
    rw [Stub.block_code, FlowGraph.succs_addEdge g inside, if_pos rfl, succs]
  | exit b es =>
    obtain ⟨inside, succs, empty, body, named⟩ := held
    refine ⟨by simpa using inside, ?_, by simpa using empty, body, ?_⟩
    · rw [Stub.block_exit, FlowGraph.succs_addEdge g inside, if_pos rfl, succs]
    · exact (g.block_field_addEdge (·.name) (fun _ _ => rfl) (fun _ _ => rfl) _ t _ f).trans named

@[simp] theorem Stub.block_link (t : Nat) (f : EdgeFlags) (x : Stub) :
    (x.link t f).block = x.block := by
  cases x <;> rfl

namespace Holding

theorem emit {x : Instr} (holding : Holding g (.opened b :: O)) (stays : x.leaves = false) :
    Holding (g.pushInstr b x) (.opened b :: O) :=
  holding.write (holding.placed.pushInstr b x)
    ((holding.held (.opened b) (by simp)).emit holding.placed stays) rfl (by simp)
    fun _ => unchanged_pushInstr holding.placed x

theorem finish {x : Instr} (holding : Holding g (.opened b :: O)) :
    Holding (g.pushInstr b x) (.code b (some x) [] :: O) :=
  holding.write (holding.placed.pushInstr b x)
    ((holding.held (.opened b) (by simp)).finish holding.placed) rfl (by simp)
    fun _ => unchanged_pushInstr holding.placed x

theorem link {x : Stub} (holding : Holding g (x :: O)) (t : Nat) (f : EdgeFlags) :
    Holding (g.addEdge x.block t f) (x.link t f :: O) :=
  holding.write (holding.placed.addEdge _ t f) ((holding.held x (by simp)).link t f) (by simp)
    (by simp) fun _ => unchanged_addEdge (holding.held x (by simp)).inside t f

theorem pushBlock (holding : Holding g O) (name : String) : Holding (g.pushBlock name).2 O where
  placed := holding.placed.pushBlock name
  held x member :=
    have held := holding.held x member
    held.unchanged (unchanged_pushBlock name held.inside) (by simp)
  distinct := holding.distinct

theorem cons {x : Stub} (holding : Holding g O) (held : x.Held g)
    (other : ∀ y ∈ O, y.block ≠ x.block) : Holding g (x :: O) where
  placed := holding.placed
  held y member := by
    rcases List.mem_cons.mp member with rfl | member
    · exact held
    · exact holding.held y member
  distinct := by
    rw [List.map_cons, List.nodup_cons, List.mem_map]
    exact ⟨fun ⟨y, member, same⟩ => other y member same, holding.distinct⟩

theorem pushNew {x : Stub} (holding : Holding g O) (name : String)
    (held : x.Held (g.pushBlock name).2) (here : x.block = g.blocks.size) :
    Holding (g.pushBlock name).2 (x :: O) := by
  refine (holding.pushBlock name).cons held fun y member same => ?_
  exact Nat.ne_of_lt (holding.held y member).inside (same.trans here)

theorem held_opened_pushBlock (g : FlowGraph) (name : String) :
    (Stub.opened g.blocks.size).Held (g.pushBlock name).2 :=
  ⟨by simp, by simp [g.succs_outside (Nat.le_refl _)], [], by simp [g.code_outside (Nat.le_refl _)],
    by simp⟩

theorem held_exit_pushBlock (g : FlowGraph) (name : String) :
    (Stub.exit g.blocks.size []).Held (g.pushBlock (name ++ "-Exit")).2 :=
  ⟨by simp, by simp [g.succs_outside (Nat.le_refl _)], by simp [g.code_outside (Nat.le_refl _)],
    name, by simp [FlowGraph.block_pushBlock, Block.ofName]⟩

end Holding

end

end Lowering

end ScriptFlow
