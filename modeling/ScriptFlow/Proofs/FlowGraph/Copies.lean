import ScriptFlow.Proofs.Digraph.Dominance
import ScriptFlow.Proofs.FlowGraph.Compact
import ScriptFlow.Proofs.Liveness

/-! What a copy of a graph has in common with it. -/

namespace ScriptFlow.FlowGraph

namespace Closed

variable {b i v a : Nat}
variable {g : FlowGraph} (closed : g.Closed)
include closed

theorem distinguished_live (special : isDistinguished b = true) : b ∈ g.liveBlocks := by
  have small : b ≤ 5 := by simpa [isDistinguished] using special
  have := closed.room
  exact g.mem_liveBlocks.mpr ⟨by omega, closed.kept b special⟩

theorem live_of_mem (member : i ∈ (g.block b).instrs) : b ∈ g.liveBlocks := by
  refine g.mem_liveBlocks.mpr ⟨g.inside_of_instrs (List.ne_nil_of_mem member), ?_⟩
  by_contra gone
  rw [(closed.bare b (by simpa using gone)).1] at member
  cases member

theorem mem_allInstrs_of_mem (member : i ∈ (g.block b).instrs) : i ∈ g.allInstrs :=
  g.mem_allInstrs.mpr ⟨b, closed.live_of_mem member, member⟩

theorem kept_of_reference (member : i ∈ g.allInstrs)
    (referred : v ∈ (g.instr i).operands ∨ (g.instr i).target? = some v) : v ∈ g.keptBindings := by
  obtain ⟨b, _, in_b⟩ := g.mem_allInstrs.mp member
  have within := closed.inScope b i in_b
  refine g.mem_keptBindings.mpr ⟨referred.elim (within.operands v) (within.target v), ?_⟩
  exact g.mem_referenced.mpr (.inl ⟨i, closed.keptInstrs_eq ▸ member, referred⟩)

end Closed

namespace Copies

variable {g h : FlowGraph} {β ι ν : Nat → Nat} (copies : Copies g h β ι ν)
include copies

theorem mem_allInstrs_copy (member : i ∈ g.allInstrs) : ι i ∈ h.allInstrs := by
  obtain ⟨b, live, in_b⟩ := g.mem_allInstrs.mp member
  refine h.mem_allInstrs.mpr ⟨β b, copies.live b live, ?_⟩
  rw [copies.block b live]
  exact List.mem_map_of_mem in_b

/-- A block of the copy that has something in it is the copy of a block. -/
theorem exists_block {c : Nat} (inside : c < h.blocks.size) :
    ∃ b ∈ g.liveBlocks, β b = c ∧ h.block c =
      { g.block b with
        instrs := (g.block b).instrs.map ι
        succs := (g.block b).succs.map fun e => (β e.1, e.2)
        preds := (g.block b).preds.map β } := by
  obtain ⟨b, live, rfl⟩ := copies.live_onto c inside
  exact ⟨b, live, rfl, copies.block b live⟩

theorem exists_instr {c j : Nat} (member : j ∈ (h.block c).instrs) :
    ∃ b ∈ g.liveBlocks, β b = c ∧ ∃ i ∈ (g.block b).instrs, ι i = j := by
  obtain ⟨b, live, same, eq⟩ := copies.exists_block (h.inside_of_instrs (List.ne_nil_of_mem member))
  rw [eq] at member
  exact ⟨b, live, same, List.mem_map.mp member⟩

theorem exists_edge (edge : b ∈ h.succIds a) :
    ∃ a' ∈ g.liveBlocks, β a' = a ∧ ∃ b' ∈ g.succIds a', β b' = b := by
  obtain ⟨a', live, same, eq⟩ := copies.exists_block (Linked.source_inside a b edge)
  rw [succIds, eq, List.map_map] at edge
  obtain ⟨e, member, rfl⟩ := List.mem_map.mp edge
  exact ⟨a', live, same, e.1, List.mem_map_of_mem member, rfl⟩

theorem succIds_copy (live : a ∈ g.liveBlocks) : h.succIds (β a) = (g.succIds a).map β := by
  simp only [succIds, copies.block a live, List.map_map]
  rfl

theorem preds_copy (live : b ∈ g.liveBlocks) : (h.block (β b)).preds = (g.block b).preds.map β := by
  rw [copies.block b live]

variable (closed : g.Closed)
include closed

theorem mem_succIds_copy (a_live : a ∈ g.liveBlocks) (b_live : b ∈ g.liveBlocks) :
    β b ∈ h.succIds (β a) ↔ b ∈ g.succIds a := by
  rw [copies.succIds_copy a_live]
  refine ⟨fun edge => ?_, List.mem_map_of_mem⟩
  obtain ⟨c, member, same⟩ := List.mem_map.mp edge
  exact copies.live_inj c (closed.target_live member) b b_live same ▸ member

theorem mem_preds_copy (a_live : a ∈ g.liveBlocks) (b_live : b ∈ g.liveBlocks) :
    β a ∈ (h.block (β b)).preds ↔ a ∈ (g.block b).preds := by
  rw [copies.preds_copy b_live]
  refine ⟨fun back => ?_, List.mem_map_of_mem⟩
  obtain ⟨c, member, same⟩ := List.mem_map.mp back
  have c_live := closed.source_live ((closed.symm c b).mpr member)
  exact copies.live_inj c c_live a a_live same ▸ member

theorem linked : h.Linked := by
  refine ⟨fun a b => ⟨fun edge => ?_, fun back => ?_⟩, fun a => ?_, fun b => ?_⟩
  · obtain ⟨a', a_live, rfl, b', member, rfl⟩ := copies.exists_edge edge
    exact (copies.mem_preds_copy closed a_live (closed.target_live member)).mpr
      ((closed.symm a' b').mp member)
  · obtain ⟨b', b_live, rfl, eq⟩ := copies.exists_block (h.inside_of_preds (List.ne_nil_of_mem back))
    rw [eq] at back
    obtain ⟨a', member, rfl⟩ := List.mem_map.mp back
    have edge := (closed.symm a' b').mpr member
    exact (copies.mem_succIds_copy closed (closed.source_live edge) b_live).mpr edge
  · by_cases inside : a < h.blocks.size
    · obtain ⟨a', live, rfl⟩ := copies.live_onto a inside
      rw [copies.succIds_copy live]
      refine (closed.succs_distinct a').map_on fun b edge c edge' same => ?_
      exact copies.live_inj b (closed.target_live edge) c (closed.target_live edge') same
    · rw [succIds, h.block_outside (Nat.le_of_not_lt inside)]
      exact List.nodup_nil
  · by_cases inside : b < h.blocks.size
    · obtain ⟨b', live, rfl⟩ := copies.live_onto b inside
      rw [copies.preds_copy live]
      refine (closed.preds_distinct b').map_on fun a back c back' same => ?_
      exact copies.live_inj a (closed.source_live ((closed.symm a b').mpr back)) c
        (closed.source_live ((closed.symm c b').mpr back')) same
    · rw [h.block_outside (Nat.le_of_not_lt inside)]
      exact List.nodup_nil

theorem closed_copy : h.Closed where
  toLinked := copies.linked closed
  room := by
    have last := copies.live 5 (closed.distinguished_live rfl)
    rw [copies.fixed 5 rfl, h.mem_liveBlocks] at last
    exact last.1
  kept b special := by
    have live := copies.live b (closed.distinguished_live special)
    rw [copies.fixed b special, h.mem_liveBlocks] at live
    exact live.2
  bare b gone := by
    by_cases inside : b < h.blocks.size
    · obtain ⟨a, live, rfl⟩ := copies.live_onto b inside
      rw [(h.mem_liveBlocks.mp (copies.live a live)).2] at gone
      cases gone
    · rw [h.block_outside (Nat.le_of_not_lt inside)] at gone
      cases gone
  placed c j member := by
    obtain ⟨b, live, rfl, i, in_b, rfl⟩ := copies.exists_instr member
    obtain ⟨inside, _, place⟩ := copies.instr i (closed.mem_allInstrs_of_mem in_b)
    exact ⟨inside, by rw [place, (closed.placed b i in_b).2]⟩
  distinct c := by
    by_cases inside : c < h.blocks.size
    · obtain ⟨b, live, rfl⟩ := copies.live_onto c inside
      rw [copies.block b live]
      refine (closed.distinct b).map_on fun i i_in j j_in same => ?_
      exact copies.instr_inj i (closed.mem_allInstrs_of_mem i_in) j
        (closed.mem_allInstrs_of_mem j_in) same
    · rw [h.block_outside (Nat.le_of_not_lt inside)]
      exact List.nodup_nil
  inScope c j member := by
    obtain ⟨b, live, rfl, i, in_b, rfl⟩ := copies.exists_instr member
    have in_all := closed.mem_allInstrs_of_mem in_b
    rw [(copies.instr i in_all).2.1]
    constructor
    · intro v operand
      rw [Instr.operands_renumber] at operand
      obtain ⟨u, read, rfl⟩ := List.mem_map.mp operand
      exact (copies.binding u (closed.kept_of_reference in_all (.inl read))).1
    · intro v target
      rw [Instr.target?_renumber] at target
      obtain ⟨u, defined, rfl⟩ := Option.map_eq_some_iff.mp target
      exact (copies.binding u (closed.kept_of_reference in_all (.inr defined))).1

/-! Ways through the graph. -/

theorem reach_copy {ok ok' : Nat → Prop} (same : ∀ b ∈ g.liveBlocks, ok b ↔ ok' (β b))
    (live : b ∈ g.liveBlocks) :
    (h.view .all).Reach enter ok' (β b) ↔ (g.view .all).Reach enter ok b := by
  have first := closed.distinguished_live (b := enter) rfl
  constructor
  · generalize is : β b = c
    intro reach
    induction reach generalizing b with
    | start holds =>
      have eq : b = enter := copies.live_inj b live enter first (is.trans (copies.fixed enter rfl).symm)
      subst eq
      refine .start ((same enter first).mpr ?_)
      rw [is]
      exact holds
    | step _ edge holds ih =>
      rw [successors_view] at edge
      obtain ⟨a, a_live, rfl, b', member, eq⟩ := copies.exists_edge edge
      have eq : b' = b := copies.live_inj b' (closed.target_live member) b live (eq.trans is.symm)
      subst eq
      refine .step (ih a_live rfl) ?_ ((same b' live).mpr (is ▸ holds))
      rw [successors_view]
      exact member
  · intro reach
    induction reach with
    | start holds =>
      have := (same enter first).mp holds
      rw [copies.fixed enter rfl] at this ⊢
      exact .start this
    | step _ edge holds ih =>
      rw [successors_view] at edge
      refine .step (ih (closed.source_live edge)) ?_ ((same _ live).mp holds)
      rw [successors_view]
      exact (copies.mem_succIds_copy closed (closed.source_live edge) live).mpr edge

omit closed in
theorem inside_copy (live : b ∈ g.liveBlocks) :
    b < (g.view .all).size ∧ β b < (h.view .all).size := by
  rw [size_view, size_view]
  exact ⟨(g.mem_liveBlocks.mp live).1, (h.mem_liveBlocks.mp (copies.live b live)).1⟩

theorem reached_copy (live : b ∈ g.liveBlocks) :
    (h.view .all).Reached enter (β b) ↔ (g.view .all).Reached enter b :=
  copies.reach_copy closed (fun _ a_live =>
    have inside := copies.inside_copy a_live
    ⟨fun _ => inside.2, fun _ => inside.1⟩) live

theorem strictlyDominates_copy {d : Nat} (d_live : d ∈ g.liveBlocks) (live : b ∈ g.liveBlocks) :
    (h.view .all).StrictlyDominates enter (β d) (β b) ↔
      (g.view .all).StrictlyDominates enter d b := by
  have differs {a : Nat} (a_live : a ∈ g.liveBlocks) : β a ≠ β d ↔ a ≠ d :=
    ⟨fun other same => other (congrArg β same),
      fun other same => other (copies.live_inj a a_live d d_live same)⟩
  refine and_congr (Iff.symm ?_) (not_congr (copies.reach_copy closed (fun a a_live => ?_) live))
  · rw [ne_comm, ne_comm (a := β d)]
    exact (differs live).symm
  · have inside := copies.inside_copy a_live
    exact ⟨fun holds => ⟨inside.2, (differs a_live).mpr holds.2⟩,
      fun holds => ⟨inside.1, (differs a_live).mp holds.2⟩⟩

/-! Definitions. -/

theorem target_copy (member : i ∈ g.allInstrs) (kept : v ∈ g.keptBindings) :
    (h.instr (ι i)).target? = some (ν v) ↔ (g.instr i).target? = some v := by
  rw [(copies.instr i member).2.1, Instr.target?_renumber]
  constructor
  · intro target
    obtain ⟨u, target, same⟩ := Option.map_eq_some_iff.mp target
    have u_kept := closed.kept_of_reference member (.inr target)
    exact copies.binding_inj u u_kept v kept same ▸ target
  · intro target
    rw [target]
    rfl

theorem definedOnce_copy (kept : v ∈ g.keptBindings)
    (once : ∃! i : Nat, i ∈ g.allInstrs ∧ (g.instr i).target? = some v) :
    ∃! j : Nat, j ∈ h.allInstrs ∧ (h.instr j).target? = some (ν v) := by
  obtain ⟨i, ⟨member, target⟩, unique⟩ := once
  refine ⟨ι i, ⟨copies.mem_allInstrs_copy member, (copies.target_copy closed member kept).mpr target⟩,
    fun j ⟨j_member, j_target⟩ => ?_⟩
  obtain ⟨c, _, in_c⟩ := h.mem_allInstrs.mp j_member
  obtain ⟨b, _, _, k, in_b, rfl⟩ := copies.exists_instr in_c
  have in_all := closed.mem_allInstrs_of_mem in_b
  exact congrArg ι (unique k ⟨in_all, (copies.target_copy closed in_all kept).mp j_target⟩)

theorem writes_copy {is : List InstrId} (members : ∀ i ∈ is, i ∈ g.allInstrs)
    (writes : g.Writes v is) : h.Writes (ν v) (is.map ι) := by
  obtain ⟨i, member, target⟩ := writes
  have in_all := members i member
  exact ⟨ι i, List.mem_map_of_mem member,
    (copies.target_copy closed in_all (closed.kept_of_reference in_all (.inr target))).mpr target⟩

end Copies

end ScriptFlow.FlowGraph
