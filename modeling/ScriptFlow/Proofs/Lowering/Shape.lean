import ScriptFlow.Proofs.Lowering.Held
import ScriptFlow.Proofs.Lowering.FlowWalk

/-! Every block that control can come to is sealed in the end: its edges fit its last instruction. -/

namespace ScriptFlow.Lowering

def Finished (g : FlowGraph) (b : Nat) : Prop := ∃ x : Stub, x.block = b ∧ x.Complete ∧ x.Held g

/-- Control may be sent to the block: it is sealed or is going to be. -/
def Useful (g : FlowGraph) (O : List Stub) (b : Nat) : Prop := (∃ x ∈ O, x.block = b) ∨ Finished g b

/-- All other blocks are empty, and nothing leads to them. -/
structure Settled (L : Set Nat) (g : FlowGraph) (O : List Stub) : Prop where
  blocks : ∀ b < g.blocks.size, Useful g O b ∨ g.code b = [] ∧ (g.block b).succs = []
  edges : ∀ a, ∀ t ∈ g.succIds a, Useful g O t
  landings : ∀ t ∈ L, Useful g O t

section

variable {g h : FlowGraph} {O O' : List Stub} {L L' : Set Nat} {x y : Stub} {b : Nat}

theorem Finished.unchanged (finished : Finished g b) (same : Unchanged g h b)
    (size : g.blocks.size ≤ h.blocks.size) : Finished h b := by
  obtain ⟨x, rfl, complete, held⟩ := finished
  exact ⟨x, rfl, complete, held.unchanged same size⟩

theorem Finished.inside (finished : Finished g b) : b < g.blocks.size := by
  obtain ⟨x, rfl, _, held⟩ := finished
  exact held.inside

theorem Useful.inside (holding : Holding g O) (useful : Useful g O b) : b < g.blocks.size := by
  rcases useful with ⟨x, member, rfl⟩ | finished
  · exact (holding.held x member).inside
  · exact finished.inside

/-- One stub is written to, and stays a stub. -/
theorem Useful.write (useful : Useful g (x :: O) b) (here : y.block = x.block)
    (size : g.blocks.size ≤ h.blocks.size) (others : ∀ c, c ≠ x.block → Unchanged g h c) :
    Useful h (y :: O) b := by
  by_cases written : b = x.block
  · exact .inl ⟨y, by simp, here.trans written.symm⟩
  · rcases useful with ⟨z, member, rfl⟩ | finished
    · refine .inl ⟨z, ?_, rfl⟩
      rcases List.mem_cons.mp member with rfl | member
      · exact absurd rfl written
      · simp [member]
    · exact .inr (finished.unchanged (others b written) size)

theorem Useful.congr (useful : Useful g O b) (blocks : ∀ x ∈ O, ∃ y ∈ O', y.block = x.block)
    (unchanged : b < g.blocks.size → Unchanged g h b) (size : g.blocks.size ≤ h.blocks.size) :
    Useful h O' b := by
  rcases useful with ⟨x, member, rfl⟩ | finished
  · exact .inl (blocks x member)
  · exact .inr (finished.unchanged (unchanged finished.inside) size)

namespace Settled

theorem write (settled : Settled L g (x :: O)) (here : y.block = x.block)
    (size : h.blocks.size = g.blocks.size) (others : ∀ c, c ≠ x.block → Unchanged g h c)
    (targets : ∀ t ∈ h.succIds x.block, t ∈ g.succIds x.block ∨ t ∈ L) : Settled L h (y :: O) := by
  have useful {t : Nat} (old : Useful g (x :: O) t) : Useful h (y :: O) t :=
    old.write here (Nat.le_of_eq size.symm) others
  refine ⟨fun b inside => ?_, fun a t edge => ?_, fun t landing => useful (settled.landings t landing)⟩
  · by_cases written : b = x.block
    · exact .inl (.inl ⟨y, by simp, here.trans written.symm⟩)
    · rw [(others b written).code, (others b written).succs]
      exact (settled.blocks b (size ▸ inside)).imp useful id
  · by_cases written : a = x.block
    · subst written
      rcases targets t edge with old | landing
      · exact useful (settled.edges _ t old)
      · exact useful (settled.landings t landing)
    · have same : h.succIds a = g.succIds a := by
        rw [FlowGraph.succIds, (others a written).succs, FlowGraph.succIds]
      exact useful (settled.edges a t (same ▸ edge))

theorem congr (settled : Settled L g O) (blocks : ∀ x ∈ O, ∃ y ∈ O', y.block = x.block)
    (code : ∀ b, h.code b = g.code b) (succs : ∀ b, (h.block b).succs = (g.block b).succs)
    (names : ∀ b < g.blocks.size, (h.block b).name = (g.block b).name)
    (size : h.blocks.size = g.blocks.size) : Settled L h O' := by
  have useful {t : Nat} (old : Useful g O t) : Useful h O' t :=
    old.congr blocks (fun inside => ⟨code t, succs t, names t inside⟩) (Nat.le_of_eq size.symm)
  refine ⟨fun b inside => ?_, fun a t edge => ?_, fun t landing => useful (settled.landings t landing)⟩
  · rw [code, succs]
    exact (settled.blocks b (size ▸ inside)).imp useful id
  · rw [FlowGraph.succIds, succs] at edge
    exact useful (settled.edges a t edge)

theorem pushBlock (settled : Settled L g O) (name : String) : Settled L (g.pushBlock name).2 O := by
  have useful {t : Nat} (old : Useful g O t) : Useful (g.pushBlock name).2 O t :=
    old.congr (fun x member => ⟨x, member, rfl⟩) (unchanged_pushBlock name) (by simp)
  refine ⟨fun b inside => ?_, fun a t edge => ?_, fun t landing => useful (settled.landings t landing)⟩
  · rw [FlowGraph.code_pushBlock, FlowGraph.succs_pushBlock]
    by_cases old : b < g.blocks.size
    · exact (settled.blocks b old).imp useful id
    · exact .inr ⟨g.code_outside (Nat.le_of_not_lt old), g.succs_outside (Nat.le_of_not_lt old)⟩
  · rw [FlowGraph.succIds, FlowGraph.succs_pushBlock] at edge
    exact useful (settled.edges a t edge)

theorem cons (settled : Settled L g O) (x : Stub) : Settled (insert x.block L) g (x :: O) := by
  have useful {t : Nat} (old : Useful g O t) : Useful g (x :: O) t :=
    old.imp (fun ⟨y, member, here⟩ => ⟨y, by simp [member], here⟩) id
  refine ⟨fun b inside => (settled.blocks b inside).imp useful id,
    fun a t edge => useful (settled.edges a t edge), ?_⟩
  rintro t (rfl | landing)
  · exact .inl ⟨x, by simp, rfl⟩
  · exact useful (settled.landings t landing)

theorem close (settled : Settled L g (x :: O)) (holding : Holding g (x :: O))
    (complete : x.Complete) : Settled L g O := by
  have useful {t : Nat} (old : Useful g (x :: O) t) : Useful g O t := by
    rcases old with ⟨y, member, rfl⟩ | finished
    · rcases List.mem_cons.mp member with rfl | member
      · exact .inr ⟨y, rfl, complete, holding.held y (by simp)⟩
      · exact .inl ⟨y, member, rfl⟩
    · exact .inr finished
  exact ⟨fun b inside => (settled.blocks b inside).imp useful id,
    fun a t edge => useful (settled.edges a t edge), fun t landing => useful (settled.landings t landing)⟩

end Settled

/-- Every block is held as a stub, sealed, or empty and never come to. -/
def shape (methodName : Option String) : Policy where
  methodName := methodName
  calls _ := True
  invariant L g O := Holding g O ∧ Settled L g O

instance shape_stable (methodName : Option String) : (shape methodName).Stable where
  builtin _ _ := trivial
  inside inv landing := (inv.2.landings _ landing).inside inv.1
  mono inv le := ⟨inv.1, inv.2.blocks, inv.2.edges, fun t landing => inv.2.landings t (le landing)⟩
  perm inv moved := by
    refine ⟨inv.1.perm moved, inv.2.congr (fun x member => ⟨x, moved.mem_iff.mp member, rfl⟩)
      (fun _ => rfl) (fun _ => rfl) (fun _ _ => rfl) rfl⟩
  same inv blocks instrs := by
    refine ⟨inv.1.same blocks instrs, inv.2.congr (fun x member => ⟨x, member, rfl⟩)
      (FlowGraph.code_congr blocks instrs) ?_ ?_ (by rw [blocks])⟩
    · exact fun b => by rw [FlowGraph.block_congr blocks]
    · exact fun b _ => by rw [FlowGraph.block_congr blocks]
  pushBlock name inv :=
    ⟨inv.1.pushNew name (Holding.held_opened_pushBlock _ name) rfl,
      (inv.2.pushBlock name).cons (.opened _)⟩
  pushExit name inv :=
    ⟨inv.1.pushNew _ (Holding.held_exit_pushBlock _ name) rfl, (inv.2.pushBlock _).cons (.exit _ [])⟩
  waste name inv := ⟨inv.1.pushBlock name, inv.2.pushBlock name⟩
  emit stays _ inv := by
    refine ⟨inv.1.emit stays, inv.2.write rfl (by simp) (fun _ => unchanged_pushInstr inv.1.placed _) ?_⟩
    exact fun t edge => .inl (by simpa [FlowGraph.succIds] using edge)
  finish _ _ inv := by
    refine ⟨inv.1.finish, inv.2.write rfl (by simp) (fun _ => unchanged_pushInstr inv.1.placed _) ?_⟩
    exact fun t edge => .inl (by simpa [FlowGraph.succIds] using edge)
  link f landing inv := by
    have inside := (inv.1.held _ (List.mem_cons_self ..)).inside
    refine ⟨inv.1.link _ f, inv.2.write (by simp) (by simp) (fun _ => unchanged_addEdge inside _ f) ?_⟩
    intro u edge
    rw [FlowGraph.succIds, FlowGraph.succs_addEdge _ inside, if_pos rfl] at edge
    rcases mem_link edge with old | rfl
    · exact .inl old
    · exact .inr landing
  close complete inv := ⟨inv.1.tail, inv.2.close inv.1 complete⟩

end

end ScriptFlow.Lowering
