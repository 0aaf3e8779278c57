import ScriptFlow.Proofs.Digraph.Dominance
import ScriptFlow.Proofs.FlowGraph.Tidy

/-! Tidying up only removes blocks. What is left of a graph without blocks to bypass is as before. -/

namespace ScriptFlow.FlowGraph

/-- Some blocks are removed and the others are as before, except for doomed ones. -/
structure Trimmed (doomed : Nat → Prop) (g h : FlowGraph) : Prop where
  size : h.blocks.size = g.blocks.size
  instrs : h.instrs = g.instrs
  name : ∀ b, (h.block b).name = (g.block b).name
  kept : ∀ b, (h.block b).removed = false → ¬doomed b →
    (h.block b).instrs = (g.block b).instrs ∧ (h.block b).succs = (g.block b).succs
  header : h.header = g.header

/-! Removing a block. -/

/-- A block that does not lead to a removed one stays as it is. -/
structure Apart (b : Nat) (g h : FlowGraph) : Prop where
  size : h.blocks.size = g.blocks.size
  instrs : h.instrs = g.instrs
  name : ∀ c, (h.block c).name = (g.block c).name
  removed : ∀ c, c ≠ b → (h.block c).removed = (g.block c).removed
  code : ∀ c, c ≠ b → (h.block c).instrs = (g.block c).instrs
  succs : ∀ c, c ≠ b → b ∉ g.succIds c → (h.block c).succs = (g.block c).succs
  header : h.header = g.header

namespace Apart

variable {b : Nat} {g h k : FlowGraph}

theorem refl (b : Nat) (g : FlowGraph) : Apart b g g :=
  ⟨rfl, rfl, fun _ => rfl, fun _ _ => rfl, fun _ _ => rfl, fun _ _ _ => rfl, rfl⟩

theorem trans (gh : Apart b g h) (hk : Apart b h k) : Apart b g k where
  size := hk.size.trans gh.size
  instrs := hk.instrs.trans gh.instrs
  name c := (hk.name c).trans (gh.name c)
  removed c other := (hk.removed c other).trans (gh.removed c other)
  code c other := (hk.code c other).trans (gh.code c other)
  succs c other away := by
    have first := gh.succs c other away
    refine (hk.succs c other ?_).trans first
    rwa [succIds, first]
  header := hk.header.trans gh.header

theorem removeEdge (g : FlowGraph) {b x y : Nat} (touches : x = b ∨ y = b) :
    Apart b g (g.removeEdge x y) where
  size := by simp
  instrs := rfl
  name := g.block_field_removeEdge (·.name) (fun _ _ => rfl) (fun _ _ => rfl) x y
  removed c _ := by simp
  code c _ := by simp
  succs c other away := by
    rw [succs_removeEdge]
    split
    · rename_i here
      have there : y = b := touches.resolve_left fun same => other (here.symm.trans same)
      refine List.filter_eq_self.mpr fun e member => ?_
      have : e.1 ≠ b := fun same => away (same ▸ List.mem_map_of_mem member)
      simpa [there] using this
    · rfl
  header := rfl

theorem foldl {α : Type} {f : FlowGraph → α → FlowGraph} (as : List α)
    (step : ∀ g a, Apart b g (f g a)) (g : FlowGraph) : Apart b g (as.foldl f g) := by
  induction as generalizing g with
  | nil => exact refl b g
  | cons a as ih => exact (step g a).trans (ih (f g a))

theorem modifyBlock (g : FlowGraph) (b : Nat) (f : Block → Block)
    (name : ∀ blk, (f blk).name = blk.name) : Apart b g (g.modifyBlock b f) where
  size := by simp
  instrs := rfl
  name c := g.block_field_modifyBlock (·.name) b c f name
  removed c other := by rw [g.block_modifyBlock_ne (Ne.symm other)]
  code c other := by rw [g.block_modifyBlock_ne (Ne.symm other)]
  succs c other _ := by rw [g.block_modifyBlock_ne (Ne.symm other)]
  header := rfl

theorem of_same (same : SameShape g h) : Apart b g h where
  size := by rw [same.blocks]
  instrs := same.instrs
  name c := by rw [block_congr same.blocks]
  removed c _ := by rw [block_congr same.blocks]
  code c _ := by rw [block_congr same.blocks]
  succs c _ _ := by rw [block_congr same.blocks]
  header := same.header

theorem removeBlock (removed : g.removeBlock b = .ok h) : Apart b g h := by
  have out := Apart.foldl (g.block b).succs (f := fun g e => g.removeEdge b e.1)
    (fun g e => removeEdge g (.inl rfl)) g
  have detached : Apart b g (g.detach b) := out.trans
    (Apart.foldl _ (f := fun g p => g.removeEdge p b) (fun g p => removeEdge g (.inr rfl)) _)
  have emptied := modifyBlock (g.detach b) b (fun blk => { blk with instrs := [] }) fun _ => rfl
  have forgotten := Apart.foldl (b := b) ((g.detach b).block b).instrs (f := forgetInstr)
    (fun g i => .of_same (sameShape_forgetInstr g i))
    ((g.detach b).modifyBlock b fun blk => { blk with instrs := [] })
  rw [eq_clear_of_removeBlock removed]
  exact detached.trans (emptied.trans (forgotten.trans (modifyBlock _ b _ fun _ => rfl)))

end Apart

theorem removed_removeBlock {g h : FlowGraph} {b : Nat} (inside : b < g.blocks.size)
    (removed : g.removeBlock b = .ok h) : (h.block b).removed = true := by
  have size := (Apart.removeBlock removed).size
  rw [eq_clear_of_removeBlock removed, clear] at size ⊢
  rw [size_modifyBlock] at size
  rw [block_modifyBlock_self]
  rw [size]
  exact inside

theorem instrs_removeBlock {g h : FlowGraph} {b : Nat} (removed : g.removeBlock b = .ok h) :
    (h.block b).instrs = [] := by
  have same := SameShape.foldl forgetInstr sameShape_forgetInstr ((g.detach b).block b).instrs
    ((g.detach b).modifyBlock b fun blk => { blk with instrs := [] })
  rw [eq_clear_of_removeBlock removed, clear,
    block_field_modifyBlock _ (·.instrs) b b (fun blk => { blk with removed := true }) fun _ => rfl,
    block_congr same.blocks, block_modifyBlock]
  split
  · rfl
  · rename_i outside
    exact congrArg Block.instrs ((g.detach b).block_outside (by grind))

theorem removeBlock_eq_ok {g : FlowGraph} {b : Nat} (movable : isDistinguished b = false) :
    g.removeBlock b = .ok (g.dropBlock b) := by
  unfold dropBlock
  cases found : g.removeBlock b with
  | ok h => rfl
  | error e =>
    unfold FlowGraph.removeBlock at found
    split at found
    · rename_i terminal
      rcases terminal with rfl | rfl <;> cases movable
    · cases found

theorem dropBlock_apart {g : FlowGraph} {b : Nat} (movable : isDistinguished b = false)
    (inside : b < g.blocks.size) :
    Apart b g (g.dropBlock b) ∧ ((g.dropBlock b).block b).removed = true :=
  have removed := removeBlock_eq_ok movable
  ⟨.removeBlock removed, removed_removeBlock inside removed⟩

namespace Trimmed

variable {doomed : Nat → Prop} {g h k : FlowGraph}

theorem refl (g : FlowGraph) : Trimmed doomed g g :=
  ⟨rfl, rfl, fun _ => rfl, fun _ _ _ => ⟨rfl, rfl⟩, rfl⟩

/-- A block may be dropped when only doomed ones lead to it. -/
theorem dropBlock {b : Nat} (trimmed : Trimmed doomed g h) (movable : isDistinguished b = false)
    (inside : b < h.blocks.size)
    (away : ∀ c, c ≠ b → (h.block c).removed = false → ¬doomed c → b ∉ h.succIds c) :
    Trimmed doomed g (h.dropBlock b) := by
  obtain ⟨apart, gone⟩ := dropBlock_apart movable inside
  refine ⟨apart.size.trans trimmed.size, apart.instrs.trans trimmed.instrs,
    fun c => (apart.name c).trans (trimmed.name c), fun c live safe => ?_,
    apart.header.trans trimmed.header⟩
  have other : c ≠ b := by
    rintro rfl
    rw [gone] at live
    cases live
  rw [apart.removed c other] at live
  obtain ⟨same_code, same_succs⟩ := trimmed.kept c live safe
  exact ⟨(apart.code c other).trans same_code,
    (apart.succs c other (away c other live safe)).trans same_succs⟩

/-- Only the blocks at hand count for whether a block is bypassed. -/
theorem throughEdge (trimmed : Trimmed doomed g h) {b : Nat} (live : (h.block b).removed = false)
    (safe : ¬doomed b) : h.throughEdge? b = g.throughEdge? b := by
  obtain ⟨same_code, same_succs⟩ := trimmed.kept b live safe
  unfold throughEdge?
  rw [same_code, same_succs]

end Trimmed

/-! Pruning. -/

/-- No block that something leads to is bypassed. -/
def Solid (g : FlowGraph) : Prop :=
  ∀ a, ∀ b ∈ g.succIds a, isDistinguished b = false → g.throughEdge? b = none

/-- No block is doomed. -/
abbrev Spared (_ : Nat) : Prop := False

theorem Trimmed.pruneBlock {g h : FlowGraph} (solid : g.Solid) (wf : h.WellFormed)
    (trimmed : Trimmed Spared g h) {b : Nat} (movable : isDistinguished b = false)
    (inside : b < h.blocks.size) : Trimmed Spared g (h.pruneBlock b).1 := by
  unfold FlowGraph.pruneBlock
  split
  · rename_i alone
    refine trimmed.dropBlock movable inside fun c _ _ _ edge => ?_
    have back := (wf.symm c b).mp edge
    rw [List.isEmpty_iff.mp alone] at back
    cases back
  · rename_i led_to
    obtain ⟨a, back⟩ := List.exists_mem_of_ne_nil _ fun none => led_to (List.isEmpty_iff.mpr none)
    have edge := (wf.symm a b).mpr back
    have old : b ∈ g.succIds a := by
      rw [succIds, ← (trimmed.kept a (wf.source_live edge) id).2]
      exact edge
    have plain : h.throughEdge? b = none :=
      (trimmed.throughEdge (wf.target_live edge) id).trans (solid a b old movable)
    rw [plain]
    exact trimmed

theorem Trimmed.pruneRound {g h : FlowGraph} (solid : g.Solid) (wf : h.WellFormed)
    (trimmed : Trimmed Spared g h) : Trimmed Spared g h.pruneRound.1 := by
  unfold FlowGraph.pruneRound
  have movable : ∀ b ∈ h.liveBlocks.filter (!isDistinguished ·),
      isDistinguished b = false ∧ b < g.blocks.size := fun b member => by
    obtain ⟨live, movable⟩ := List.mem_filter.mp member
    exact ⟨by simpa using movable, trimmed.size ▸ (h.mem_liveBlocks.mp live).1⟩
  generalize h.liveBlocks.filter (!isDistinguished ·) = bs at movable
  generalize false = changed
  induction bs generalizing h changed with
  | nil => exact trimmed
  | cons b bs ih =>
    obtain ⟨here, inside⟩ := movable b (by simp)
    rw [← trimmed.size] at inside
    exact ih (wf.pruneBlock here) (trimmed.pruneBlock solid wf here inside)
      (fun c member => movable c (by simp [member])) _

theorem Trimmed.pruneRounds {g h : FlowGraph} (solid : g.Solid) (wf : h.WellFormed)
    (trimmed : Trimmed Spared g h) (fuel : Nat) : Trimmed Spared g (pruneRounds fuel h) := by
  induction fuel generalizing h with
  | zero => exact trimmed
  | succ fuel ih =>
    have round_wf := wf.pruneRound
    have round := trimmed.pruneRound solid wf
    unfold FlowGraph.pruneRounds
    split
    · rename_i pruned eq
      rw [eq] at round round_wf
      exact ih round_wf round
    · rename_i pruned eq
      rw [eq] at round
      exact round

/-! Tidying up. -/

/-- The blocks that belong to every graph lead to each other, after the first. -/
def Enclosed (g : FlowGraph) : Prop :=
  ∀ a, isDistinguished a = true → a ≠ enter → ∀ b ∈ g.succIds a, isDistinguished b = true

/-- Blocks that nothing but each other leads to are dropped one by one. -/
theorem Trimmed.foldl_dropBlock {doomed : Nat → Prop} {g h : FlowGraph} (wf : h.WellFormed)
    (closed : ∀ a, (h.block a).removed = false → ¬doomed a → ∀ b ∈ h.succIds a, ¬doomed b)
    (bs : List Nat) (dead : ∀ b ∈ bs, doomed b ∧ isDistinguished b = false ∧ b < h.blocks.size)
    (trimmed : Trimmed doomed g h) :
    Trimmed doomed g (bs.foldl FlowGraph.dropBlock h) ∧
      (∀ c, ¬doomed c → ((bs.foldl FlowGraph.dropBlock h).block c).removed = (h.block c).removed) ∧
      ∀ b, b ∈ bs ∨ (h.block b).removed = true →
        ((bs.foldl FlowGraph.dropBlock h).block b).removed = true := by
  induction bs generalizing h with
  | nil => exact ⟨trimmed, fun _ _ => rfl, fun b gone => gone.resolve_left (by simp)⟩
  | cons b bs ih =>
    obtain ⟨doom, movable, inside⟩ := dead b (by simp)
    obtain ⟨apart, gone⟩ := dropBlock_apart movable inside
    have away (c : Nat) (live : (h.block c).removed = false) (safe : ¬doomed c) : b ∉ h.succIds c :=
      fun edge => closed c live safe b edge doom
    have other {c : Nat} (safe : ¬doomed c) : c ≠ b := fun same => safe (same ▸ doom)
    have next := ih (wf.dropBlock movable) ?_ ?_
      (trimmed.dropBlock movable inside fun c _ live safe => away c live safe)
    · obtain ⟨trimmed', removed', gone'⟩ := next
      refine ⟨trimmed', fun c safe => (removed' c safe).trans (apart.removed c (other safe)), ?_⟩
      intro c either
      by_cases here : c = b
      · exact gone' c (.inr (here ▸ gone))
      · refine gone' c (either.imp (fun member => ?_) fun old => ?_)
        · exact (List.mem_cons.mp member).resolve_left here
        · rw [apart.removed c here]
          exact old
    · intro a live safe c edge
      rw [apart.removed a (other safe)] at live
      rw [succIds, apart.succs a (other safe) (away a live safe)] at edge
      exact closed a live safe c edge
    · intro c member
      obtain ⟨doom, movable, inside⟩ := dead c (by simp [member])
      exact ⟨doom, movable, by rw [apart.size]; exact inside⟩

theorem reached_of_edge {g : FlowGraph} (linked : g.Linked) {a b : Nat}
    (reached : (g.view .all).Reached enter a) (edge : b ∈ g.succIds a) :
    (g.view .all).Reached enter b := by
  refine .step reached ?_ ?_
  · rw [successors_view]
    exact edge
  · rw [size_view]
    exact linked.target_inside edge

theorem live_of_reached {g : FlowGraph} (wf : g.WellFormed) {b : Nat}
    (reached : (g.view .all).Reached enter b) : (g.block b).removed = false := by
  cases reached with
  | start _ => exact wf.kept enter rfl
  | step _ edge _ =>
    rw [successors_view] at edge
    exact wf.target_live edge

/-- A graph in which the reached blocks have the same edges reaches the same blocks. -/
theorem reached_of_same {g h : FlowGraph} (size : h.blocks.size = g.blocks.size)
    (same : ∀ b, (g.view .all).Reached enter b → h.succIds b = g.succIds b) {b : Nat}
    (reached : (g.view .all).Reached enter b) : (h.view .all).Reached enter b := by
  have inside {v : Nat} (old : v < (g.view .all).size) : v < (h.view .all).size := by
    rw [size_view] at old ⊢
    rw [size]
    exact old
  induction reached with
  | start old => exact .start (inside old)
  | step reach edge old ih =>
    refine .step ih ?_ (inside old)
    rw [successors_view, same _ reach, ← successors_view]
    exact edge

/-- The block is not one of those that stay, and is never reached. -/
def Stranded (g : FlowGraph) (b : Nat) : Prop :=
  b ∈ g.liveBlocks ∧ ¬(g.view .all).Reached enter b ∧ isDistinguished b = false

theorem mem_dead {g : FlowGraph} (wf : g.WellFormed) (b : Nat) :
    b ∈ (g.liveBlocks.filter fun b =>
      !((g.view .all).search enter).contains b && !isDistinguished b) ↔ g.Stranded b := by
  have room : enter < (g.view .all).size := by
    rw [size_view]
    exact Nat.lt_of_lt_of_le (by decide) wf.room
  have found : ((g.view .all).search enter).contains b = false ↔ ¬(g.view .all).Reached enter b := by
    rw [Digraph.Reached, ← Digraph.mem_search _ room, ← List.contains_iff_mem, Bool.not_eq_true]
  simp only [List.mem_filter, Bool.and_eq_true, Bool.not_eq_true', found, Stranded]

/-- Only stranded blocks lead to stranded blocks. -/
theorem Enclosed.not_stranded {g : FlowGraph} (wf : g.WellFormed) (enclosed : g.Enclosed) {a b : Nat}
    (safe : ¬g.Stranded a) (edge : b ∈ g.succIds a) : ¬g.Stranded b := by
  rintro ⟨_, unreached, movable⟩
  by_cases known : (g.view .all).Reached enter a
  · exact unreached (reached_of_edge wf.toLinked known edge)
  · have stays : isDistinguished a = true := by
      by_contra movable
      have live : a ∈ g.liveBlocks :=
        g.mem_liveBlocks.mpr ⟨Linked.source_inside a b edge, wf.source_live edge⟩
      exact safe ⟨live, known, by simpa using movable⟩
    have later : a ≠ enter := by
      rintro rfl
      refine known (.start ?_)
      rw [size_view]
      exact Nat.lt_of_lt_of_le (by decide) wf.room
    rw [enclosed a stays later b edge] at movable
    cases movable

theorem Trimmed.enclosed {g h : FlowGraph} (trimmed : Trimmed Spared g h) (wf : h.WellFormed)
    (enclosed : g.Enclosed) : h.Enclosed := by
  intro a stays later b edge
  refine enclosed a stays later b ?_
  rw [succIds, ← (trimmed.kept a (wf.source_live edge) id).2]
  exact edge

theorem Trimmed.reached {g h : FlowGraph} (trimmed : Trimmed Spared g h) (wf : h.WellFormed) {b : Nat}
    (reached : (g.view .all).Reached enter b) : (h.view .all).Reached enter b := by
  induction reached with
  | start _ =>
    refine .start ?_
    rw [size_view]
    exact Nat.lt_of_lt_of_le (by decide) wf.room
  | @step a b _ edge _ ih =>
    refine reached_of_edge wf.toLinked ih ?_
    rw [succIds, (trimmed.kept a (live_of_reached wf ih) id).2]
    rw [successors_view] at edge
    exact edge

/-- After tidying up, the blocks that are left are as before, and all of them are reached. -/
theorem tidy_trimmed {g : FlowGraph} (wf : g.WellFormed) (solid : g.Solid) (enclosed : g.Enclosed) :
    Trimmed Spared g (Lowering.tidy g) ∧
      ∀ b ∈ (Lowering.tidy g).liveBlocks, isDistinguished b = false →
        ((Lowering.tidy g).view .all).Reached enter b := by
  have pruned : Trimmed Spared g g.prune := (Trimmed.refl g).pruneRounds solid wf _
  have pruned_wf : g.prune.WellFormed := wf.pruneRounds _
  unfold Lowering.tidy
  generalize g.prune = h at pruned pruned_wf
  dsimp only
  have dead := mem_dead pruned_wf
  obtain ⟨trimmed, same, gone⟩ := Trimmed.foldl_dropBlock pruned_wf
    (fun a _ (safe : ¬h.Stranded a) b => (pruned.enclosed pruned_wf enclosed).not_stranded pruned_wf safe)
    (h.liveBlocks.filter fun b => !((h.view .all).search enter).contains b && !isDistinguished b)
    (fun b member =>
      have stranded := (dead b).mp member
      ⟨stranded, stranded.2.2, (h.mem_liveBlocks.mp stranded.1).1⟩)
    ⟨pruned.size, pruned.instrs, pruned.name, fun b live _ => pruned.kept b live id, pruned.header⟩
  generalize (h.liveBlocks.filter fun b =>
    !((h.view .all).search enter).contains b && !isDistinguished b) = bs at dead trimmed same gone ⊢
  generalize bs.foldl FlowGraph.dropBlock h = k at trimmed same gone
  have spared {b : Nat} (live : (k.block b).removed = false) : ¬h.Stranded b := fun stranded => by
    rw [gone b (.inl ((dead b).mpr stranded))] at live
    cases live
  have uses := sameShape_rebuildUses k
  have block := block_congr uses.blocks
  refine ⟨⟨?_, uses.instrs.trans trimmed.instrs, ?_, ?_, uses.header.trans trimmed.header⟩, ?_⟩
  · rw [uses.blocks]
    exact trimmed.size
  · intro b
    rw [block]
    exact trimmed.name b
  · intro b live _
    rw [block] at live ⊢
    exact trimmed.kept b live (spared live)
  · intro b live movable
    obtain ⟨inside, live⟩ := k.rebuildUses.mem_liveBlocks.mp live
    rw [uses.blocks, trimmed.size, ← pruned.size] at inside
    rw [block] at live
    have safe := spared live
    rw [same b safe] at live
    have reached : (h.view .all).Reached enter b := by
      by_contra unreached
      exact safe ⟨h.mem_liveBlocks.mpr ⟨inside, live⟩, unreached, movable⟩
    refine reached_of_same (by rw [uses.blocks, trimmed.size, pruned.size]) (fun v known => ?_) reached
    have safe : ¬h.Stranded v := fun stranded => stranded.2.1 known
    have live := live_of_reached pruned_wf known
    rw [succIds, succIds, block, (pruned.kept v live id).2]
    rw [← same v safe] at live
    rw [(trimmed.kept v live safe).2]

end ScriptFlow.FlowGraph
