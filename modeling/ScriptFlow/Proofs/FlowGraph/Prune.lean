import Mathlib.Logic.Relation
import ScriptFlow.Proofs.FlowGraph.Trim

/-! Pruning keeps what leads where. Each step takes one block out, and whatever led to that block leads
on to where it led. -/

namespace ScriptFlow

/-- The blocks that a transfer of control goes to. -/
def Instr.destinations : Instr → List BlockId
  | .jump b => [b]
  | .branch _ yes no => [yes, no]
  | _ => []

theorem Instr.destinations_mapBlocks (f : BlockId → BlockId) (x : Instr) :
    (x.mapBlocks f).destinations = x.destinations.map f := by
  cases x <;> rfl

namespace FlowGraph

variable {g h k : FlowGraph} {b s : Nat}

/-- One edge or more lead from one block to another. -/
abbrev LeadsTo (g : FlowGraph) : Nat → Nat → Prop := Relation.TransGen fun a c => c ∈ g.succIds a

/-- Both records of the edges agree, and control is transferred along edges. -/
structure Coherent (g : FlowGraph) : Prop extends Linked g where
  along : ∀ b ∈ g.liveBlocks, ∀ i ∈ (g.block b).instrs, ∀ t ∈ (g.instr i).destinations,
    t ∈ g.succIds b

/-- No edge leads on from a block to one that was removed. -/
def Joined (g : FlowGraph) : Prop := ∀ a ∈ g.liveBlocks, ∀ c ∈ g.succIds a, c ∈ g.liveBlocks

/-! Taking a block out. -/

/-- A block is taken out, and what led to it leads on to where it led. -/
structure Bypassed (b : Nat) (g h : FlowGraph) : Prop where
  size : h.blocks.size = g.blocks.size
  gone : (h.block b).removed = true
  removed : ∀ c, c ≠ b → (h.block c).removed = (g.block c).removed
  code : ∀ c, c ≠ b → (h.block c).instrs = (g.block c).instrs
  linked : h.Linked
  edges : ∀ a c, c ∈ h.succIds a ↔
    a ≠ b ∧ c ≠ b ∧ (c ∈ g.succIds a ∨ b ∈ g.succIds a ∧ c ∈ g.succIds b)
  destinations : ∀ a ∈ g.liveBlocks, a ≠ b → ∀ i ∈ (g.block a).instrs,
    ∀ t ∈ (h.instr i).destinations, t ≠ b ∧
      (t ∈ (g.instr i).destinations ∨ b ∈ (g.instr i).destinations ∧ t ∈ g.succIds b)

namespace Bypassed

variable (bypassed : Bypassed b g h)
include bypassed

theorem liveBlocks_eq : h.liveBlocks = g.liveBlocks.filter (· != b) := by
  rw [liveBlocks, liveBlocks, List.filter_filter, bypassed.size]
  refine List.filter_congr fun c _ => ?_
  by_cases here : c = b
  · simp [here, bypassed.gone]
  · simp [here, bypassed.removed c here]

theorem mem_liveBlocks_iff {c : Nat} : c ∈ h.liveBlocks ↔ c ∈ g.liveBlocks ∧ c ≠ b := by
  rw [bypassed.liveBlocks_eq, List.mem_filter, bne_iff_ne]

theorem length_lt (live : b ∈ g.liveBlocks) : h.liveBlocks.length < g.liveBlocks.length := by
  rw [bypassed.liveBlocks_eq]
  exact List.length_filter_lt_length_iff_exists.mpr ⟨b, live, by simp⟩

theorem coherent (coherent : g.Coherent) : h.Coherent := by
  refine ⟨bypassed.linked, fun c live i member t goal => ?_⟩
  obtain ⟨old, other⟩ := bypassed.mem_liveBlocks_iff.mp live
  rw [bypassed.code c other] at member
  obtain ⟨stays, goals⟩ := bypassed.destinations c old other i member t goal
  refine (bypassed.edges c t).mpr ⟨other, stays, ?_⟩
  rcases goals with direct | ⟨first, second⟩
  · exact .inl (coherent.along c old i member t direct)
  · exact .inr ⟨coherent.along c old i member b first, second⟩

theorem joined (live : b ∈ g.liveBlocks) (joined : g.Joined) : h.Joined := by
  intro a a_live c edge
  obtain ⟨-, stays, edges⟩ := (bypassed.edges a c).mp edge
  refine bypassed.mem_liveBlocks_iff.mpr ⟨?_, stays⟩
  rcases edges with direct | ⟨-, second⟩
  · exact joined a (bypassed.mem_liveBlocks_iff.mp a_live).1 c direct
  · exact joined b live c second

/-- What is reached from `u` before is reached after, or it is the block taken out and there is
another block before it that still is. -/
theorem leadsTo_or {u v : Nat} (start : u ≠ b) (leads : g.LeadsTo u v) :
    v ≠ b ∧ h.LeadsTo u v ∨ v = b ∧ ∃ a, a ≠ b ∧ b ∈ g.succIds a ∧
      Relation.ReflTransGen (fun x y => y ∈ h.succIds x) u a := by
  induction leads with
  | @single v edge =>
    by_cases here : v = b
    · exact .inr ⟨here, u, start, here ▸ edge, .refl⟩
    · exact .inl ⟨here, .single ((bypassed.edges u v).mpr ⟨start, here, .inl edge⟩)⟩
  | @tail x v _ edge ih =>
    rcases ih with ⟨outside, leads⟩ | ⟨rfl, a, outside, into, leads⟩
    · by_cases here : v = b
      · exact .inr ⟨here, x, outside, here ▸ edge, leads.to_reflTransGen⟩
      · exact .inl ⟨here, leads.tail ((bypassed.edges x v).mpr ⟨outside, here, .inl edge⟩)⟩
    · by_cases here : v = x
      · exact .inr ⟨here, a, outside, into, leads⟩
      · exact .inl ⟨here, .tail' leads ((bypassed.edges a v).mpr ⟨outside, here, .inr ⟨into, edge⟩⟩)⟩

theorem leadsTo_iff {u v : Nat} (start : u ≠ b) (goal : v ≠ b) : h.LeadsTo u v ↔ g.LeadsTo u v := by
  constructor
  · intro leads
    refine leads.trans_induction_on (fun edge => ?_) fun _ _ first second => first.trans second
    obtain ⟨-, -, direct | ⟨into, out⟩⟩ := (bypassed.edges _ _).mp edge
    · exact .single direct
    · exact .tail (.single into) out
  · intro leads
    rcases bypassed.leadsTo_or start leads with ⟨-, leads⟩ | ⟨here, -⟩
    · exact leads
    · exact absurd here goal

end Bypassed

/-! Removing a block. -/

theorem Linked.removeBlock (linked : g.Linked) (removed : g.removeBlock b = .ok h) :
    h.Linked ∧ ∀ a c, c ∈ h.succIds a ↔ c ∈ g.succIds a ∧ a ≠ b ∧ c ≠ b := by
  rw [eq_clear_of_removeBlock removed]
  obtain ⟨linked', edges⟩ := linked.detach b
  have same := SameShape.foldl forgetInstr sameShape_forgetInstr ((g.detach b).block b).instrs
    ((g.detach b).modifyBlock b fun blk => { blk with instrs := [] })
  -- clearing a block does not touch its edges
  have field {α : Type} (field : Block → α) (code : ∀ blk, field { blk with instrs := [] } = field blk)
      (mark : ∀ blk, field { blk with removed := true } = field blk) (c : Nat) :
      field (((g.detach b).clear b).block c) = field ((g.detach b).block c) :=
    (block_field_modifyBlock _ field b c _ mark).trans
      ((congrArg field (block_congr same.blocks c)).trans
        (block_field_modifyBlock _ field b c _ code))
  have same_succs (c : Nat) : ((g.detach b).clear b).succIds c = (g.detach b).succIds c := by
    rw [succIds, field (·.succs) (fun _ => rfl) fun _ => rfl, succIds]
  have same_preds := field (·.preds) (fun _ => rfl) fun _ => rfl
  refine ⟨linked'.of_same same_succs same_preds, fun a c => ?_⟩
  rw [same_succs, edges]

/-- A block that nothing leads to may be removed. -/
theorem Coherent.dropBlock (coherent : g.Coherent) (live : b ∈ g.liveBlocks)
    (movable : isDistinguished b = false) (alone : (g.block b).preds = []) :
    Bypassed b g (g.dropBlock b) := by
  obtain ⟨apart, gone⟩ := dropBlock_apart movable (g.mem_liveBlocks.mp live).1
  obtain ⟨linked, edges⟩ := coherent.toLinked.removeBlock (removeBlock_eq_ok movable)
  have unreached {a : Nat} (into : b ∈ g.succIds a) : False := by
    have back := (coherent.symm a b).mp into
    rw [alone] at back
    cases back
  refine ⟨apart.size, gone, apart.removed, apart.code, linked, fun a c => ?_,
    fun a old other i member t goal => ?_⟩
  · rw [edges]
    constructor
    · exact fun ⟨edge, source, target⟩ => ⟨source, target, .inl edge⟩
    · rintro ⟨source, target, edge | ⟨into, -⟩⟩
      · exact ⟨edge, source, target⟩
      · exact (unreached into).elim
  · rw [instr_congr apart.instrs] at goal
    refine ⟨?_, .inl goal⟩
    rintro rfl
    exact unreached (coherent.along a old i member t goal)

/-! Sending edges past a block. -/

/-- Edges from `ps` to `b` lead to `s` instead, and so do transfers of control. -/
structure Diverted (b s : Nat) (ps : List Nat) (g h : FlowGraph) : Prop where
  frame : SameFrame g h
  linked : h.Linked
  edges : ∀ a c, c ∈ h.succIds a ↔ c ∈ g.succIds a ∧ (a ∈ ps → c ≠ b) ∨ a ∈ ps ∧ c = s
  destinations : ∀ i, ∀ t ∈ (h.instr i).destinations,
    (t ∈ (g.instr i).destinations ∨ b ∈ (g.instr i).destinations ∧ t = s) ∧
      ∀ p ∈ ps, i ∈ (g.block p).instrs → t ≠ b

theorem destinations_redirect (other : s ≠ b) (is : List Nat) (g : FlowGraph) {i t : Nat}
    (goal : t ∈ ((g.redirect (fun x => if x = b then s else x) is).instr i).destinations) :
    (t ∈ (g.instr i).destinations ∨ b ∈ (g.instr i).destinations ∧ t = s) ∧ (i ∈ is → t ≠ b) := by
  induction is generalizing g with
  | nil => exact ⟨.inl goal, fun member => by cases member⟩
  | cons j is ih =>
    have later := ih _ goal
    rw [instr_setInstr] at later
    split at later
    · rename_i here
      rw [Instr.destinations_mapBlocks, here.1] at later
      grind
    · rename_i unchanged
      refine ⟨later.1, fun member => ?_⟩
      rcases List.mem_cons.mp member with here | listed
      · -- an instruction that is not there goes nowhere
        have outside : g.instrs.size ≤ i := Nat.le_of_not_lt fun inside => unchanged ⟨here.symm, here ▸ inside⟩
        have nowhere : (g.instr i).destinations = [] := by
          rw [instr, Array.getD_eq_getD_getElem?, Array.getElem?_eq_none outside]
          rfl
        simp [nowhere] at later
      · exact later.2 listed

theorem Linked.diverted (linked : g.Linked) (ps : List Nat) (sources : ∀ p ∈ ps, p < g.blocks.size)
    (target : s < g.blocks.size) (other : s ≠ b) :
    Diverted b s ps g (ps.foldl (bypassEdge b s) g) := by
  induction ps generalizing g with
  | nil =>
    exact ⟨⟨rfl, fun _ => rfl, fun _ => rfl⟩, linked, by simp, fun i t goal => ⟨.inl goal, by simp⟩⟩
  | cons p ps ih =>
    have frame := sameFrame_bypassEdge b s p g
    have inside : p < (g.removeEdge p b).blocks.size := by simpa using sources p (by simp)
    have same (a : Nat) : (bypassEdge b s g p).block a =
        ((g.removeEdge p b).addEdge p s ((g.edge? p b).getD .none)).block a :=
      block_congr (blocks_redirect _ _ _) a
    have linked' : (bypassEdge b s g p).Linked := by
      refine ((linked.removeEdge p b).addEdge inside (b := s) ?_ ((g.edge? p b).getD .none)).of_same
        (fun a => ?_) fun a => ?_
      · simpa using target
      · rw [succIds, same, succIds]
      · rw [same]
    have edges (a c : Nat) : c ∈ (bypassEdge b s g p).succIds a ↔
        c ∈ g.succIds a ∧ (a = p → c ≠ b) ∨ a = p ∧ c = s := by
      rw [succIds, same, ← succIds, succIds_addEdge _ inside, succIds_removeEdge, succIds_removeEdge]
      grind
    have rest := ih linked'
      (fun q member => by rw [frame.size]; exact sources q (by simp [member]))
      (by rw [frame.size]; exact target)
    rw [List.foldl_cons]
    refine ⟨⟨rest.frame.size.trans frame.size, fun c => (rest.frame.removed c).trans (frame.removed c),
      fun c => (rest.frame.instrs c).trans (frame.instrs c)⟩, rest.linked, fun a c => ?_,
      fun i t goal => ?_⟩
    · rw [rest.edges, edges]
      grind
    · have first {x : Nat} (member : x ∈ ((bypassEdge b s g p).instr i).destinations) :
          (x ∈ (g.instr i).destinations ∨ b ∈ (g.instr i).destinations ∧ x = s) ∧
            (i ∈ (g.block p).instrs → x ≠ b) := by
        have renamed := destinations_redirect other _ _ member
        rw [instrs_addEdge, instrs_removeEdge, instr_congr (instrs_array_addEdge _ p s _)] at renamed
        exact renamed
      have later := rest.destinations i t goal
      simp only [frame.instrs] at later
      grind

/-- A block that only passes control on may be spliced out. -/
theorem Coherent.spliceOut (coherent : g.Coherent) (live : b ∈ g.liveBlocks)
    (movable : isDistinguished b = false) (through : g.throughEdge? b = some s) :
    Bypassed b g (g.spliceOut b s) := by
  obtain ⟨f, -, only, other, -⟩ := throughEdge_eq_some_iff.mp through
  have succ_iff (c : Nat) : c ∈ g.succIds b ↔ c = s := by simp [succIds, only]
  have diverted := coherent.toLinked.diverted (b := b) (g.block b).preds
    (fun p back => Linked.source_inside p b ((coherent.symm p b).mpr back))
    (coherent.target_inside ((succ_iff s).mpr rfl)) other
  rw [spliceOut_eq]
  generalize (g.block b).preds.foldl (bypassEdge b s) g = k at diverted ⊢
  obtain ⟨apart, gone⟩ := dropBlock_apart (g := k) movable (diverted.frame.size ▸ (g.mem_liveBlocks.mp live).1)
  obtain ⟨linked, edges⟩ := diverted.linked.removeBlock (removeBlock_eq_ok movable)
  refine ⟨apart.size.trans diverted.frame.size, gone,
    fun c stays => (apart.removed c stays).trans (diverted.frame.removed c),
    fun c stays => (apart.code c stays).trans (diverted.frame.instrs c), linked, fun a c => ?_,
    fun a old stays i member t goal => ?_⟩
  · rw [edges, diverted.edges, ← coherent.symm, succ_iff]
    grind
  · rw [instr_congr apart.instrs] at goal
    obtain ⟨goals, away⟩ := diverted.destinations i t goal
    rw [succ_iff]
    refine ⟨?_, goals⟩
    rintro rfl
    -- whoever goes to the block leads to it, and was sent on
    rcases goals with direct | ⟨-, here⟩
    · have into := coherent.along a old i member t direct
      exact away a ((coherent.symm a t).mp into) member rfl
    · exact other here.symm

/-! Rounds of pruning. -/

/-- Something leads to the block, and it does not only pass control on. -/
def Needed (g : FlowGraph) (b : Nat) : Prop := (g.block b).preds ≠ [] ∧ g.throughEdge? b = none

theorem Coherent.pruneBlock (coherent : g.Coherent) (live : b ∈ g.liveBlocks)
    (movable : isDistinguished b = false) :
    g.pruneBlock b = (g, false) ∧ g.Needed b ∨
      ∃ h, g.pruneBlock b = (h, true) ∧ Bypassed b g h := by
  unfold FlowGraph.pruneBlock
  split
  · rename_i alone
    exact .inr ⟨_, rfl, coherent.dropBlock live movable (List.isEmpty_iff.mp alone)⟩
  · rename_i led_to
    cases through : g.throughEdge? b with
    | none => exact .inl ⟨rfl, fun none => led_to (List.isEmpty_iff.mpr none), through⟩
    | some s => exact .inr ⟨_, rfl, coherent.spliceOut live movable through⟩

/-- Some blocks are taken out, and the others lead to each other as before. -/
structure Condensed (g h : FlowGraph) : Prop where
  coherent : h.Coherent
  live : ∀ b ∈ h.liveBlocks, b ∈ g.liveBlocks
  kept : ∀ b ∈ g.liveBlocks, isDistinguished b = true → b ∈ h.liveBlocks
  leads : ∀ u ∈ h.liveBlocks, ∀ v ∈ h.liveBlocks, h.LeadsTo u v ↔ g.LeadsTo u v
  joined : g.Joined → h.Joined

namespace Condensed

theorem refl (coherent : g.Coherent) : Condensed g g :=
  ⟨coherent, fun _ live => live, fun _ live _ => live, fun _ _ _ _ => Iff.rfl, id⟩

theorem trans (first : Condensed g h) (second : Condensed h k) : Condensed g k where
  coherent := second.coherent
  live b live := first.live b (second.live b live)
  kept b live stays := second.kept b (first.kept b live stays) stays
  leads u u_live v v_live := (second.leads u u_live v v_live).trans
    (first.leads u (second.live u u_live) v (second.live v v_live))
  joined joined := second.joined (first.joined joined)

theorem of_bypassed (coherent : g.Coherent) (live : b ∈ g.liveBlocks)
    (movable : isDistinguished b = false) (bypassed : Bypassed b g h) : Condensed g h where
  coherent := bypassed.coherent coherent
  live c live := (bypassed.mem_liveBlocks_iff.mp live).1
  kept c live stays := bypassed.mem_liveBlocks_iff.mpr ⟨live, by
    rintro rfl
    rw [movable] at stays
    cases stays⟩
  leads u u_live v v_live := bypassed.leadsTo_iff (bypassed.mem_liveBlocks_iff.mp u_live).2
    (bypassed.mem_liveBlocks_iff.mp v_live).2
  joined := bypassed.joined live

end Condensed

/-- Nothing is left to prune. -/
structure Pruned (g : FlowGraph) : Prop where
  stays : g.pruneRound = (g, false)
  needed : ∀ b ∈ g.liveBlocks, isDistinguished b = false → g.Needed b

theorem mem_candidates {b : Nat} : b ∈ g.liveBlocks.filter (!isDistinguished ·) ↔
    b ∈ g.liveBlocks ∧ isDistinguished b = false := by
  rw [List.mem_filter, Bool.not_eq_true']

theorem Coherent.pruneRound (coherent : g.Coherent) :
    g.Pruned ∨ ∃ h, g.pruneRound = (h, true) ∧ Condensed g h ∧
      h.liveBlocks.length < g.liveBlocks.length := by
  have round : (g.pruneRound = (g, false) ∧
      ∀ b ∈ g.liveBlocks.filter (!isDistinguished ·), g.Needed b) ∨
      ∃ h, g.pruneRound = (h, true) ∧ Condensed g h ∧
        h.liveBlocks.length < g.liveBlocks.length := by
    have distinct : (g.liveBlocks.filter (!isDistinguished ·)).Nodup :=
      (List.nodup_range.filter _).filter _
    have listed (b : Nat) := (mem_candidates (g := g) (b := b)).mp
    unfold FlowGraph.pruneRound
    generalize g.liveBlocks.filter (!isDistinguished ·) = bs at distinct listed
    generalize false = changed
    -- the candidates were listed before the first of them was looked at
    induction bs generalizing g changed with
    | nil => exact .inl ⟨rfl, by simp⟩
    | cons b bs ih =>
      obtain ⟨fresh, distinct⟩ := List.nodup_cons.mp distinct
      obtain ⟨live, movable⟩ := listed b (by simp)
      rw [List.foldl_cons]
      dsimp only
      rcases coherent.pruneBlock live movable with ⟨eq, needed⟩ | ⟨h, eq, bypassed⟩
      · rw [eq]
        dsimp only
        rw [Bool.or_false]
        rcases ih coherent distinct (fun c member => listed c (by simp [member])) changed with
          ⟨same, others⟩ | found
        · exact .inl ⟨same, by simpa using ⟨needed, others⟩⟩
        · exact .inr found
      · rw [eq]
        dsimp only
        rw [Bool.or_true]
        have step := Condensed.of_bypassed coherent live movable bypassed
        have shorter := bypassed.length_lt live
        rcases ih step.coherent distinct (fun c member => by
          obtain ⟨old, movable⟩ := listed c (by simp [member])
          refine ⟨bypassed.mem_liveBlocks_iff.mpr ⟨old, ?_⟩, movable⟩
          rintro rfl
          exact fresh member) true with ⟨same, -⟩ | ⟨k, found, rest, fewer⟩
        · exact .inr ⟨h, same, step, shorter⟩
        · exact .inr ⟨k, found, step.trans rest, fewer.trans shorter⟩
  rcases round with ⟨stays, needed⟩ | found
  · exact .inl ⟨stays, fun b live movable => needed b (mem_candidates.mpr ⟨live, movable⟩)⟩
  · exact .inr found

/-- Rounds take blocks out until nothing is left to prune. More rounds than there are blocks make no
difference. -/
theorem Coherent.pruneRounds (coherent : g.Coherent) :
    ∃ h, h.Pruned ∧ Condensed g h ∧
      ∀ fuel, g.liveBlocks.length < fuel → FlowGraph.pruneRounds fuel g = h := by
  induction count : g.liveBlocks.length using Nat.strong_induction_on generalizing g with
  | _ n ih =>
    subst count
    rcases coherent.pruneRound with pruned | ⟨h, round, condensed, fewer⟩
    · refine ⟨g, pruned, .refl coherent, fun fuel enough => ?_⟩
      obtain ⟨fuel, rfl⟩ := Nat.exists_eq_succ_of_ne_zero (Nat.ne_of_gt (Nat.zero_lt_of_lt enough))
      rw [FlowGraph.pruneRounds, pruned.stays]
    · obtain ⟨k, pruned, rest, reached⟩ := ih _ fewer condensed.coherent rfl
      refine ⟨k, pruned, condensed.trans rest, fun fuel enough => ?_⟩
      obtain ⟨fuel, rfl⟩ := Nat.exists_eq_succ_of_ne_zero (Nat.ne_of_gt (Nat.zero_lt_of_lt enough))
      rw [FlowGraph.pruneRounds, round]
      exact reached fuel (by omega)

/-- The edges are recorded at both ends if that holds for the blocks there are. -/
theorem linked_of_below
    (succs : ∀ a : Nat, a < g.blocks.size → ∀ c ∈ g.succIds a, a ∈ (g.block c).preds)
    (preds : ∀ c : Nat, c < g.blocks.size → ∀ a ∈ (g.block c).preds, c ∈ g.succIds a)
    (distinct : ∀ a : Nat, a < g.blocks.size → (g.succIds a).Nodup ∧ (g.block a).preds.Nodup) :
    g.Linked := by
  have nodup (a : Nat) : (g.succIds a).Nodup ∧ (g.block a).preds.Nodup := by
    by_cases inside : a < g.blocks.size
    · exact distinct a inside
    · rw [succIds, g.block_outside (Nat.le_of_not_lt inside)]
      exact ⟨List.nodup_nil, List.nodup_nil⟩
  refine ⟨fun a c => ⟨fun edge => succs a (Linked.source_inside a c edge) c edge, fun back => ?_⟩,
    fun a => (nodup a).1, fun a => (nodup a).2⟩
  exact preds c (g.inside_of_preds (List.ne_nil_of_mem back)) a back

end FlowGraph

end ScriptFlow
