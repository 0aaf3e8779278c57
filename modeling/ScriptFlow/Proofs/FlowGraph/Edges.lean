import ScriptFlow.Proofs.FlowGraph.Basic

/-! Edges of a flow graph are recorded at both ends, and stay so when edges are added or removed. -/

namespace ScriptFlow.FlowGraph

variable {a b : Nat}
variable (g : FlowGraph)

/-! Changing the flags of an edge. -/

theorem block_field_modifyEdge {α : Type} (field : Block → α)
    (same : ∀ blk es, field { blk with succs := es } = field blk) (a b c : Nat)
    (f : EdgeFlags → EdgeFlags) : field ((g.modifyEdge a b f).block c) = field (g.block c) :=
  block_field_modifyBlock _ field a c _ fun blk => same blk _

@[simp] theorem succIds_modifyEdge (a b c : Nat) (f : EdgeFlags → EdgeFlags) :
    (g.modifyEdge a b f).succIds c = g.succIds c := by
  refine block_field_modifyBlock g (·.succs.map (·.1)) a c _ fun blk => ?_
  rw [List.map_map]
  refine List.map_congr_left fun e _ => ?_
  simp only [Function.comp]
  split <;> rfl

theorem mem_succs_modifyEdge {c : Nat} {f : EdgeFlags → EdgeFlags} {e : Nat × EdgeFlags}
    (member : e ∈ ((g.modifyEdge a b f).block c).succs) :
    e ∈ (g.block c).succs ∨ c = a ∧ e.1 = b ∧ ∃ old, (b, old) ∈ (g.block a).succs ∧ e.2 = f old := by
  rw [modifyEdge, block_modifyBlock] at member
  split at member
  · rename_i h
    obtain ⟨old, old_mem, rfl⟩ := List.mem_map.mp member
    split
    · rename_i hit
      exact .inr ⟨h.1.symm, hit, old.2, hit ▸ old_mem, rfl⟩
    · exact .inl (h.1 ▸ old_mem)
  · exact .inl member

/-! Adding an edge. -/

theorem block_field_addEdge {α : Type} (field : Block → α)
    (succs : ∀ blk es, field { blk with succs := es } = field blk)
    (preds : ∀ blk ps, field { blk with preds := ps } = field blk) (a b c : Nat)
    (flags : EdgeFlags) : field ((g.addEdge a b flags).block c) = field (g.block c) := by
  unfold addEdge
  split
  · exact g.block_field_modifyEdge field succs a b c _
  · rw [block_field_modifyBlock _ field b c _ fun blk => preds blk _,
      block_field_modifyBlock _ field a c _ fun blk => succs blk _]

@[simp] theorem instrs_addEdge (a b c : Nat) (flags : EdgeFlags) :
    ((g.addEdge a b flags).block c).instrs = (g.block c).instrs :=
  g.block_field_addEdge (·.instrs) (fun _ _ => rfl) (fun _ _ => rfl) a b c flags

@[simp] theorem removed_addEdge (a b c : Nat) (flags : EdgeFlags) :
    ((g.addEdge a b flags).block c).removed = (g.block c).removed :=
  g.block_field_addEdge (·.removed) (fun _ _ => rfl) (fun _ _ => rfl) a b c flags

@[simp] theorem blocks_size_addEdge (a b : Nat) (flags : EdgeFlags) :
    (g.addEdge a b flags).blocks.size = g.blocks.size := by
  unfold addEdge modifyEdge
  split <;> simp

@[simp] theorem instrs_array_addEdge (a b : Nat) (flags : EdgeFlags) :
    (g.addEdge a b flags).instrs = g.instrs := by
  unfold addEdge modifyEdge modifyBlock
  split <;> rfl

@[simp] theorem bindings_addEdge (a b : Nat) (flags : EdgeFlags) :
    (g.addEdge a b flags).bindings = g.bindings := by
  unfold addEdge modifyEdge modifyBlock
  split <;> rfl

theorem succIds_addEdge (inside : a < g.blocks.size) (b c : Nat) (flags : EdgeFlags) :
    (g.addEdge a b flags).succIds c =
      if a = c ∧ b ∉ g.succIds a then g.succIds a ++ [b] else g.succIds c := by
  unfold addEdge
  by_cases known : (g.edge? a b).isSome = true
  · rw [if_pos known, succIds_modifyEdge, if_neg fun h => h.2 (g.edge_isSome_iff.mp known)]
  · rw [if_neg known]
    have absent : b ∉ g.succIds a := fun h => known (g.edge_isSome_iff.mpr h)
    have first := block_field_modifyBlock (g.modifyBlock a fun blk =>
      { blk with succs := blk.succs ++ [(b, flags)] }) (·.succs.map (·.1)) b c
      (fun blk => { blk with preds := blk.preds ++ [a] }) fun _ => rfl
    simp only [succIds] at first ⊢
    rw [first, block_modifyBlock]
    by_cases here : a = c
    · subst here
      simp [inside, succIds] at absent ⊢
      simp [absent]
    · simp [here]

theorem preds_addEdge (inside : b < g.blocks.size) (c : Nat) (flags : EdgeFlags) :
    ((g.addEdge a b flags).block c).preds =
      if b = c ∧ b ∉ g.succIds a then (g.block b).preds ++ [a] else (g.block c).preds := by
  unfold addEdge
  by_cases known : (g.edge? a b).isSome = true
  · rw [if_pos known, if_neg fun h => h.2 (g.edge_isSome_iff.mp known)]
    exact g.block_field_modifyEdge (·.preds) (fun _ _ => rfl) a b c _
  · rw [if_neg known, block_modifyBlock]
    have absent : b ∉ g.succIds a := fun h => known (g.edge_isSome_iff.mpr h)
    have first (d : Nat) := block_field_modifyBlock g (·.preds) a d
      (fun blk => { blk with succs := blk.succs ++ [(b, flags)] }) fun _ => rfl
    by_cases here : b = c
    · subst here
      simp [inside, absent, first]
    · simp [here, first]

theorem mem_succs_addEdge {c : Nat} {flags : EdgeFlags} {e : Nat × EdgeFlags}
    (member : e ∈ ((g.addEdge a b flags).block c).succs) :
    e ∈ (g.block c).succs ∨ c = a ∧ e.1 = b ∧
      (e.2 = flags ∨ ∃ old, (b, old) ∈ (g.block a).succs ∧ e.2 = old.union flags) := by
  unfold addEdge at member
  split at member
  · rcases g.mem_succs_modifyEdge member with old | ⟨here, there, changed⟩
    · exact .inl old
    · exact .inr ⟨here, there, .inr changed⟩
  · rw [block_field_modifyBlock _ (·.succs) b c (fun blk => { blk with preds := blk.preds ++ [a] })
      fun _ => rfl, block_modifyBlock] at member
    split at member
    · rename_i h
      rcases List.mem_append.mp member with old | new
      · exact .inl (h.1 ▸ old)
      · have eq : e = (b, flags) := by simpa using new
        exact .inr ⟨h.1.symm, by rw [eq], .inl (by rw [eq])⟩
    · exact .inl member

/-! Removing an edge. -/

theorem block_field_removeEdge {α : Type} (field : Block → α)
    (succs : ∀ blk es, field { blk with succs := es } = field blk)
    (preds : ∀ blk ps, field { blk with preds := ps } = field blk) (a b c : Nat) :
    field ((g.removeEdge a b).block c) = field (g.block c) := by
  unfold removeEdge
  rw [block_field_modifyBlock _ field b c _ fun blk => preds blk _,
    block_field_modifyBlock _ field a c _ fun blk => succs blk _]

@[simp] theorem instrs_removeEdge (a b c : Nat) :
    ((g.removeEdge a b).block c).instrs = (g.block c).instrs :=
  g.block_field_removeEdge (·.instrs) (fun _ _ => rfl) (fun _ _ => rfl) a b c

@[simp] theorem removed_removeEdge (a b c : Nat) :
    ((g.removeEdge a b).block c).removed = (g.block c).removed :=
  g.block_field_removeEdge (·.removed) (fun _ _ => rfl) (fun _ _ => rfl) a b c

@[simp] theorem blocks_size_removeEdge (a b : Nat) :
    (g.removeEdge a b).blocks.size = g.blocks.size := by
  simp [removeEdge]

theorem succs_removeEdge (a b c : Nat) :
    ((g.removeEdge a b).block c).succs =
      if a = c then (g.block c).succs.filter (·.1 != b) else (g.block c).succs := by
  unfold removeEdge
  rw [block_field_modifyBlock _ (·.succs) b c
    (fun blk => { blk with preds := blk.preds.filter (· != a) }) fun _ => rfl, block_modifyBlock]
  by_cases here : a = c
  · subst here
    by_cases inside : a < g.blocks.size
    · simp [inside]
    · rw [g.block_outside (Nat.le_of_not_lt inside)]
      simp [inside]
      rfl
  · simp [here]

theorem preds_removeEdge (a b c : Nat) :
    ((g.removeEdge a b).block c).preds =
      if b = c then (g.block c).preds.filter (· != a) else (g.block c).preds := by
  unfold removeEdge
  have first (d : Nat) := block_field_modifyBlock g (·.preds) a d
    (fun blk => { blk with succs := blk.succs.filter (·.1 != b) }) fun _ => rfl
  rw [block_modifyBlock]
  by_cases here : b = c
  · subst here
    by_cases inside : b < g.blocks.size
    · simp [inside, first]
    · rw [g.block_outside (Nat.le_of_not_lt inside)]
      simp [inside, first, g.block_outside (Nat.le_of_not_lt inside)]
      rfl
  · simp [here, first]

theorem succIds_removeEdge (a b c : Nat) :
    (g.removeEdge a b).succIds c =
      if a = c then (g.succIds c).filter (· != b) else g.succIds c := by
  unfold succIds
  rw [succs_removeEdge]
  split
  · rw [List.filter_map]
    rfl
  · rfl

/-! Both records of the edges agree. -/

structure Linked (g : FlowGraph) : Prop where
  symm : ∀ a b, b ∈ g.succIds a ↔ a ∈ (g.block b).preds
  succs_distinct : ∀ a, (g.succIds a).Nodup
  preds_distinct : ∀ b, (g.block b).preds.Nodup

namespace Linked

variable {g}

theorem of_same {h : FlowGraph} (linked : g.Linked) (succs : ∀ a, h.succIds a = g.succIds a)
    (preds : ∀ a, (h.block a).preds = (g.block a).preds) : h.Linked where
  symm a b := by rw [succs, preds, linked.symm]
  succs_distinct a := by rw [succs]; exact linked.succs_distinct a
  preds_distinct a := by rw [preds]; exact linked.preds_distinct a

theorem source_inside (a b : Nat) (edge : b ∈ g.succIds a) : a < g.blocks.size :=
  g.inside_of_succs fun none => by simp [succIds, none] at edge

theorem target_inside (linked : g.Linked) (edge : b ∈ g.succIds a) : b < g.blocks.size :=
  g.inside_of_preds fun none => by
    have back := (linked.symm a b).mp edge
    rw [none] at back
    cases back

theorem edge_eq_some_iff (linked : g.Linked) {f : EdgeFlags} :
    g.edge? a b = some f ↔ (b, f) ∈ (g.block a).succs :=
  ⟨mem_of_lookup, lookup_of_mem (linked.succs_distinct a)⟩

theorem addEdge (linked : g.Linked) (source : a < g.blocks.size)
    (target : b < g.blocks.size) (flags : EdgeFlags) : (g.addEdge a b flags).Linked := by
  by_cases known : b ∈ g.succIds a
  · refine linked.of_same (fun c => ?_) fun c => ?_
    · rw [succIds_addEdge g source, if_neg fun h => h.2 known]
    · rw [preds_addEdge g target, if_neg fun h => h.2 known]
  · have unknown : a ∉ (g.block b).preds := fun h => known ((linked.symm a b).mpr h)
    refine ⟨fun c d => ?_, fun c => ?_, fun c => ?_⟩
    · rw [succIds_addEdge g source, preds_addEdge g target]
      have old := linked.symm c d
      by_cases from_a : a = c <;> by_cases to_b : b = d
      · subst from_a to_b
        simp [known]
      · subst from_a
        simp [known, to_b, old, Ne.symm to_b]
      · subst to_b
        simp [known, from_a, old, Ne.symm from_a]
      · simp [from_a, to_b, old]
    · rw [succIds_addEdge g source]
      split
      · exact List.nodup_append.mpr ⟨linked.succs_distinct a, by simp, by grind⟩
      · exact linked.succs_distinct c
    · rw [preds_addEdge g target]
      split
      · exact List.nodup_append.mpr ⟨linked.preds_distinct b, by simp, by grind⟩
      · exact linked.preds_distinct c

theorem removeEdge (linked : g.Linked) (a b : Nat) : (g.removeEdge a b).Linked := by
  refine ⟨fun c d => ?_, fun c => ?_, fun c => ?_⟩
  · rw [succIds_removeEdge, preds_removeEdge]
    have old := linked.symm c d
    by_cases from_a : a = c <;> by_cases to_b : b = d <;> grind
  · rw [succIds_removeEdge]
    split
    · exact (linked.succs_distinct c).filter _
    · exact linked.succs_distinct c
  · rw [preds_removeEdge]
    split
    · exact (linked.preds_distinct c).filter _
    · exact linked.preds_distinct c

end Linked

/-! The graph seen as a plain directed graph. -/

theorem size_view (filter : EdgeFilter) : (g.view filter).size = g.blocks.size := by
  simp [view, Digraph.size]

theorem successors_view_filter (filter : EdgeFilter) (b : Nat) :
    (g.view filter).successors b = g.successors b filter := by
  by_cases inside : b < g.blocks.size
  · simp [view, Digraph.successors, inside]
  · have none : g.successors b filter = [] := by
      rw [successors, g.block_outside (Nat.le_of_not_lt inside)]
      rfl
    rw [none]
    simp [view, Digraph.successors, inside]

theorem successors_view (b : Nat) : (g.view .all).successors b = g.succIds b := by
  rw [successors_view_filter, successors_all]

variable {g}

theorem mem_successors_view {filter : EdgeFilter} :
    b ∈ (g.view filter).successors a ↔
      ∃ f, (b, f) ∈ (g.block a).succs ∧ filter.accepts f = true := by
  simp [successors_view_filter, successors]

theorem mem_predecessors_view {filter : EdgeFilter} :
    a ∈ (g.view filter).predecessors b ↔
      a ∈ (g.block b).preds ∧ (g.edge? a b).any filter.accepts = true := by
  by_cases inside : b < g.blocks.size
  · simp [view, Digraph.predecessors, inside, predecessors]
  · have none : (g.block b).preds = [] := by
      rw [g.block_outside (Nat.le_of_not_lt inside)]
      rfl
    rw [none]
    simp [view, Digraph.predecessors, inside]

/-- Both records of the edges agree whatever edges are looked at. -/
theorem Linked.view_symm (linked : g.Linked) {filter : EdgeFilter} (a b : Nat) :
    a ∈ (g.view filter).predecessors b ↔ b ∈ (g.view filter).successors a := by
  rw [mem_predecessors_view, mem_successors_view, ← linked.symm, mem_succIds, Option.any_eq_true]
  simp only [linked.edge_eq_some_iff]
  exact ⟨And.right, fun ⟨f, edge, accepted⟩ => ⟨⟨f, edge⟩, f, edge, accepted⟩⟩

end ScriptFlow.FlowGraph
