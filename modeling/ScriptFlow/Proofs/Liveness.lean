import Mathlib.Algebra.BigOperators.Group.Finset.Basic
import Mathlib.Algebra.Order.BigOperators.Group.Finset
import Mathlib.Data.List.Chain
import ScriptFlow.Liveness
import ScriptFlow.Proofs.BitSet
import ScriptFlow.Proofs.Digraph.Postorder
import ScriptFlow.Proofs.FlowGraph.WellFormed

/-! A binding is found to be live exactly where its value may still be read: where a path leads to a
block that reads it and no block before that on the path writes it. -/

namespace ScriptFlow

namespace BindingSets

/-- One set for each block, with room for all bindings. -/
structure Sized (blocks room : Nat) (s : BindingSets) : Prop where
  size_eq : s.size = blocks
  sized : ∀ b < blocks, (s.of b).Sized room

theorem of_set (s : BindingSets) (b c : Nat) (t : BitSet) :
    BindingSets.of (s.setIfInBounds b t) c = if c = b ∧ b < s.size then t else s.of c := by
  simp only [of, Array.getD_eq_getD_getElem?, Array.getElem?_setIfInBounds]
  grind

theorem of_setAll (s : BindingSets) (f : Nat → BitSet) (bs : List Nat) :
    (bs.foldl (fun (s : BindingSets) b => s.setIfInBounds b (f b)) s).size = s.size ∧
      ∀ c, BindingSets.of (bs.foldl (fun (s : BindingSets) b => s.setIfInBounds b (f b)) s) c =
        if c ∈ bs ∧ c < s.size then f c else s.of c := by
  induction bs generalizing s with
  | nil => simp
  | cons b bs ih =>
    obtain ⟨size, others⟩ := ih (s.setIfInBounds b (f b))
    rw [Array.size_setIfInBounds] at size others
    refine ⟨size, fun c => ?_⟩
    rw [List.foldl_cons, others, of_set]
    grind

namespace Sized

variable {blocks room : Nat} {s : BindingSets}

theorem none (blocks room : Nat) : Sized blocks room (Array.replicate blocks (.empty room)) where
  size_eq := Array.size_replicate
  sized b inside := by
    have here : BindingSets.of (Array.replicate blocks (.empty room)) b = .empty room := by
      simp [of, Array.getD_eq_getD_getElem?, inside]
    rw [here]
    exact .empty room

theorem set (sized : s.Sized blocks room) (b : Nat) {t : BitSet} (t_sized : t.Sized room) :
    Sized blocks room (s.setIfInBounds b t) where
  size_eq := Array.size_setIfInBounds.trans sized.size_eq
  sized c inside := by
    rw [of_set]
    split
    · exact t_sized
    · exact sized.sized c inside

/-- Outside of the graph there is no room and nothing in it. -/
theorem small (sized : s.Sized blocks room) (b : Nat) :
    (s.of b).Fits ∧ (s.of b).capacity ≤ room := by
  by_cases inside : b < blocks
  · exact ⟨(sized.sized b inside).fits, (sized.sized b inside).room.le⟩
  · have outside : s.of b = .empty 0 := by
      rw [of, Array.getD_eq_getD_getElem?, Array.getElem?_eq_none (by rw [sized.size_eq]; omega)]
      rfl
    rw [outside]
    exact ⟨.empty 0, Nat.zero_le room⟩

end Sized

end BindingSets

/-! The blocks that wait. -/

namespace LivenessSearch

/-- Each block that waits does so once, and those that do are marked. -/
structure Queued (blocks : Nat) (s : LivenessSearch) : Prop where
  sized : s.queued.Sized blocks
  marks : s.queued.members = {b | b ∈ s.pending}
  once : s.pending.Nodup

variable {blocks : Nat} {s : LivenessSearch}

theorem Queued.inside (queued : s.Queued blocks) {b : Nat} (waits : b ∈ s.pending) : b < blocks := by
  refine queued.sized.lt ?_
  rw [queued.marks]
  exact waits

theorem Queued.length_le (queued : s.Queued blocks) : s.pending.length ≤ blocks := by
  have few := queued.once.length_le_of_subset fun b waits => List.mem_range.mpr (queued.inside waits)
  rwa [List.length_range] at few

theorem Queued.enqueue (queued : s.Queued blocks) (b : Nat) :
    (s.enqueue b).Queued blocks ∧ (s.enqueue b).entry = s.entry ∧ (s.enqueue b).exit = s.exit ∧
      ∀ c, c ∈ (s.enqueue b).pending ↔ c ∈ s.pending ∨ c = b ∧ b < blocks := by
  obtain ⟨⟨rfl, fits⟩, marks, once⟩ := queued
  by_cases inside : b < s.queued.capacity
  · obtain ⟨new, queued', run, is_new, room, fits', members⟩ := fits.insert? inside
    rw [marks] at members is_new
    cases new with
    | true =>
      have fresh : b ∉ s.pending := is_new.mp rfl
      simp only [LivenessSearch.enqueue, run, List.mem_append, List.mem_singleton, inside, and_true,
        implies_true]
      refine ⟨⟨room, fits'⟩, ?_, ?_⟩
      · rw [members]
        ext c
        simp [or_comm]
      · rw [List.nodup_append]
        refine ⟨once, List.nodup_singleton b, fun c member d last => ?_⟩
        rintro rfl
        exact fresh (List.mem_singleton.mp last ▸ member)
    | false =>
      have old : b ∈ s.pending := by simpa using is_new
      simp only [LivenessSearch.enqueue, run, true_and]
      refine ⟨⟨⟨rfl, fits⟩, marks, once⟩, fun c => ?_⟩
      grind
  · have refused : s.queued.insert? b = none := if_neg inside
    simp only [LivenessSearch.enqueue, refused, inside, and_false, or_false, implies_true, and_true]
    exact ⟨⟨rfl, fits⟩, marks, once⟩

theorem Queued.enqueueAll (queued : s.Queued blocks) (bs : List Nat) :
    (bs.foldl LivenessSearch.enqueue s).Queued blocks ∧
      (bs.foldl LivenessSearch.enqueue s).entry = s.entry ∧
      (bs.foldl LivenessSearch.enqueue s).exit = s.exit ∧
      ∀ c, c ∈ (bs.foldl LivenessSearch.enqueue s).pending ↔
        c ∈ s.pending ∨ c ∈ bs ∧ c < blocks := by
  induction bs generalizing s with
  | nil => simp [queued]
  | cons b bs ih =>
    obtain ⟨one, entry, exit, waits⟩ := queued.enqueue b
    obtain ⟨all, all_entry, all_exit, all_wait⟩ := ih one
    refine ⟨all, all_entry.trans entry, all_exit.trans exit, fun c => ?_⟩
    rw [List.foldl_cons, all_wait, waits, List.mem_cons]
    grind

theorem Queued.pop (queued : s.Queued blocks) {b : Nat} {pending : List Nat}
    (waits : s.pending = b :: pending) :
    Queued blocks { s with pending, queued := s.queued.erase b } := by
  obtain ⟨sized, members⟩ := queued.sized.erase b
  have once := queued.once
  rw [waits, List.nodup_cons] at once
  refine ⟨sized, members.trans (Set.ext fun c => ?_), once.2⟩
  rw [queued.marks, waits]
  simp only [Set.mem_sdiff, Set.mem_ofPred_eq, List.mem_cons, Set.mem_singleton_iff]
  grind

end LivenessSearch

namespace FlowGraph

variable (g : FlowGraph)

/-- The instructions read the binding before any of them writes it. -/
def ReadsFirst (v : Nat) : List InstrId → Prop
  | [] => False
  | i :: is => v ∈ (g.instr i).operands ∨ (g.instr i).target? ≠ some v ∧ ReadsFirst v is

/-- One of the instructions writes the binding. -/
def Writes (v : Nat) (is : List InstrId) : Prop := ∃ i ∈ is, (g.instr i).target? = some v

/-- On some way on from the start of the block, the binding is read before it is written. -/
inductive LiveIn (v : Nat) : Nat → Prop where
  | exposed {b : Nat} : g.ReadsFirst v (g.block b).instrs → LiveIn v b
  | through {b c : Nat} : ¬g.Writes v (g.block b).instrs → c ∈ g.succIds b → LiveIn v c → LiveIn v b

theorem readsFirst_congr {g h : FlowGraph} {v : Nat} {is : List InstrId}
    (same : ∀ i ∈ is, h.instr i = g.instr i) (reads : h.ReadsFirst v is) : g.ReadsFirst v is := by
  induction is with
  | nil => exact reads
  | cons i is ih =>
    have later := ih fun j member => same j (List.mem_cons_of_mem _ member)
    rw [ReadsFirst, same i List.mem_cons_self] at reads
    exact reads.imp_right (And.imp_right later)

/-! What the instructions of a block do. -/

theorem access_spec {room : Nat} (is : List InstrId) (a : BlockAccess)
    (exposed : a.exposed.Sized room) (written : a.written.Sized room) :
    (is.foldl (fun a i => a.add (g.instr i)) a).exposed.Sized room ∧
      (is.foldl (fun a i => a.add (g.instr i)) a).written.Sized room ∧
      ((∀ i ∈ is, (g.instr i).isPhi = false) → ∀ v < room,
        (v ∈ (is.foldl (fun a i => a.add (g.instr i)) a).exposed.members ↔
          v ∈ a.exposed.members ∨ v ∉ a.written.members ∧ g.ReadsFirst v is) ∧
        (v ∈ (is.foldl (fun a i => a.add (g.instr i)) a).written.members ↔
          v ∈ a.written.members ∨ g.Writes v is)) := by
  induction is generalizing a with
  | nil => simp [exposed, written, ReadsFirst, Writes]
  | cons i is ih =>
    obtain ⟨one_exposed, mem_exposed⟩ := exposed.addAll
      (if (g.instr i).isPhi then [] else (g.instr i).operands.filter fun v => !a.written.contains v)
    obtain ⟨one_written, mem_written⟩ := written.addAll (g.instr i).target?.toList
    obtain ⟨all_exposed, all_written, mem⟩ := ih (a.add (g.instr i)) one_exposed one_written
    refine ⟨all_exposed, all_written, fun plain v known => ?_⟩
    obtain ⟨later_exposed, later_written⟩ :=
      mem (fun j member => plain j (List.mem_cons_of_mem _ member)) v known
    have new_exposed : v ∈ (a.add (g.instr i)).exposed.members ↔
        v ∈ a.exposed.members ∨ v ∈ (g.instr i).operands ∧ v ∉ a.written.members := by
      rw [BlockAccess.add, mem_exposed, plain i List.mem_cons_self]
      simp [known, BitSet.members]
    have new_written : v ∈ (a.add (g.instr i)).written.members ↔
        v ∈ a.written.members ∨ (g.instr i).target? = some v := by
      rw [BlockAccess.add, mem_written]
      simp [known]
    rw [List.foldl_cons, later_exposed, later_written, new_exposed, new_written]
    simp only [ReadsFirst, Writes, List.mem_cons]
    grind

theorem access_sized (b : Nat) :
    (g.access b).exposed.Sized g.bindings.size ∧ (g.access b).written.Sized g.bindings.size := by
  unfold access
  split
  · exact ⟨.empty _, .empty _⟩
  · obtain ⟨exposed, written, _⟩ := g.access_spec (g.block b).instrs (.none g.bindings.size)
      (.empty _) (.empty _)
    exact ⟨exposed, written⟩

theorem accesses_getD {b : Nat} (inside : b < g.blocks.size) :
    g.accesses.getD b default = g.access b := by
  simp [accesses, Array.getD_eq_getD_getElem?, inside]

theorem access_live {b : Nat} (live : b ∈ g.liveBlocks) :
    g.access b = (g.block b).instrs.foldl (fun a i => a.add (g.instr i)) (.none g.bindings.size) :=
  if_neg (by simp [(g.mem_liveBlocks.mp live).2])

/-! Graphs without phis. -/

/-- Every edge of a block leads to a block that lists it, and there are no phis. Removed blocks are not
part of the graph, so nothing is asked of them. -/
structure Plain (g : FlowGraph) : Prop where
  listed : ∀ b ∈ g.liveBlocks, ∀ c ∈ g.succIds b, c ∈ g.liveBlocks ∧ b ∈ (g.block c).preds
  unmerged : ∀ b ∈ g.liveBlocks, ∀ i ∈ (g.block b).instrs, (g.instr i).isPhi = false

instance : Decidable g.Plain :=
  decidable_of_iff (_ ∧ _) ⟨fun h => ⟨h.1, h.2⟩, fun h => ⟨h.1, h.2⟩⟩

namespace Plain

variable {g} (plain : g.Plain)
include plain

theorem phiReads_eq_nil : g.phiReads = [] := by
  refine List.flatMap_eq_nil_iff.mpr fun i member => ?_
  obtain ⟨b, live, inside⟩ := g.mem_allInstrs.mp member
  have no_phi := plain.unmerged b live i inside
  cases shape : g.instr i <;> simp_all [Instr.isPhi]

variable {b v : Nat} (live : b ∈ g.liveBlocks) (known : v < g.bindings.size)
include live known

theorem mem_exposed : v ∈ (g.access b).exposed.members ↔ g.ReadsFirst v (g.block b).instrs := by
  obtain ⟨-, -, mem⟩ := g.access_spec (g.block b).instrs (.none g.bindings.size) (.empty _) (.empty _)
  rw [g.access_live live, (mem (plain.unmerged b live) v known).1]
  simp [BlockAccess.none, BitSet.members_empty]

theorem mem_written : v ∈ (g.access b).written.members ↔ g.Writes v (g.block b).instrs := by
  obtain ⟨-, -, mem⟩ := g.access_spec (g.block b).instrs (.none g.bindings.size) (.empty _) (.empty _)
  rw [g.access_live live, (mem (plain.unmerged b live) v known).2]
  simp [BlockAccess.none, BitSet.members_empty]

end Plain

/-! One visit. -/

variable {g} {s t : LivenessSearch} {b : Nat}

/-- The bindings that are not known to be live on entry to some block. -/
def missing (g : FlowGraph) (s : BindingSets) : Nat :=
  ∑ b ∈ Finset.range g.blocks.size,
    ((Finset.range g.bindings.size).filter fun v => (s.of b).contains v = false).card

/-- With a larger set for one block, less is missing. -/
theorem missing_set {entry : BindingSets} {t : BitSet}
    (sized : entry.Sized g.blocks.size g.bindings.size) (inside : b < g.blocks.size)
    (more : (entry.of b).members ⊆ t.members) :
    g.missing (entry.setIfInBounds b t) ≤ g.missing entry ∧ (∀ v ∈ t.members, v < g.bindings.size →
      v ∉ (entry.of b).members → g.missing (entry.setIfInBounds b t) < g.missing entry) := by
  have old (v : Nat) : (entry.of b).contains v = true → t.contains v = true := @more v
  have subset (c : Nat) : ((Finset.range g.bindings.size).filter fun v =>
        (BindingSets.of (entry.setIfInBounds b t) c).contains v = false) ⊆
      (Finset.range g.bindings.size).filter fun v => (entry.of c).contains v = false := by
    intro v
    rw [entry.of_set]
    grind
  refine ⟨Finset.sum_le_sum fun c _ => Finset.card_le_card (subset c), fun v new known fresh => ?_⟩
  refine Finset.sum_lt_sum (fun c _ => Finset.card_le_card (subset c))
    ⟨b, Finset.mem_range.mpr inside, Finset.card_lt_card ?_⟩
  refine (Finset.ssubset_iff_of_subset (subset b)).mpr ⟨v, ?_, ?_⟩
  · simpa [known, BitSet.members] using fresh
  · rw [entry.of_set, if_pos ⟨rfl, sized.size_eq.symm ▸ inside⟩]
    simpa [BitSet.members] using fun _ => new

/-- The sets have room for the bindings, and the blocks that wait are marked. -/
structure Searching (g : FlowGraph) (s : LivenessSearch) : Prop where
  entry : s.entry.Sized g.blocks.size g.bindings.size
  exit : s.exit.Sized g.blocks.size g.bindings.size
  queued : s.Queued g.blocks.size

/-- What a visit computes. The blocks before wait for a visit if a binding is new. -/
structure Visited (g : FlowGraph) (b : Nat) (s t : LivenessSearch) : Prop extends Searching g t where
  exit_other : ∀ c, c ≠ b → t.exit.of c = s.exit.of c
  entry_other : ∀ c, c ≠ b → t.entry.of c = s.entry.of c
  mem_exit : ∀ v, v ∈ (t.exit.of b).members ↔
    v ∈ (s.exit.of b).members ∨ ∃ c ∈ g.succIds b, v ∈ (s.entry.of c).members
  mem_entry : ∀ v, v ∈ (t.entry.of b).members ↔ v ∈ (s.entry.of b).members ∨
    v ∈ (t.exit.of b).members ∧ v ∉ (g.access b).written.members ∨ v ∈ (g.access b).exposed.members
  outcome : (t.entry.of b).members ⊆ (s.entry.of b).members ∧
      g.missing t.entry ≤ g.missing s.entry ∧ t.pending = s.pending ∨
    g.missing t.entry < g.missing s.entry ∧ ∀ c, c ∈ t.pending ↔
      c ∈ s.pending ∨ c ∈ (g.block b).preds ∧ c < g.blocks.size

theorem Searching.visitLive (searching : g.Searching s) (inside : b < g.blocks.size) :
    g.Visited b s (g.visitLive (g.access b) s b) := by
  obtain ⟨entry, exit, queued⟩ := searching
  obtain ⟨exposed_sized, written_sized⟩ := g.access_sized b
  obtain ⟨exit_sized, mem_exit⟩ := (exit.sized b inside).unionAll s.entry.of (g.successors b .all)
    fun c _ => entry.small c
  simp only [FlowGraph.visitLive, successors_all] at exit_sized mem_exit ⊢
  generalize (g.succIds b).foldl (fun out c => out.union (s.entry.of c)) (s.exit.of b) = exit'
    at exit_sized mem_exit ⊢
  obtain ⟨carried_sized, carried⟩ := exit_sized.diff written_sized
  obtain ⟨new_sized, new⟩ := carried_sized.union exposed_sized.fits exposed_sized.room.le
  obtain ⟨sized, members, report⟩ := (entry.sized b inside).unionWith new_sized
  have mem_entry (v : Nat) := Set.ext_iff.mp members v
  simp only [new, carried, Set.mem_union, Set.mem_sdiff] at mem_entry
  generalize (s.entry.of b).unionWith ((exit'.diff (g.access b).written).union (g.access b).exposed) =
    r at sized members report mem_entry ⊢
  obtain ⟨changed, entry'⟩ := r
  dsimp only at sized members report mem_entry
  have of_entry (c : Nat) := s.entry.of_set b c entry'
  have of_exit (c : Nat) := s.exit.of_set b c exit'
  simp only [entry.size_eq, exit.size_eq, inside, and_true] at of_entry of_exit
  obtain ⟨fewer, strictly⟩ := missing_set entry inside
    (members ▸ Set.subset_union_left : (s.entry.of b).members ⊆ entry'.members)
  have base : g.Searching { s with
      entry := s.entry.setIfInBounds b entry', exit := s.exit.setIfInBounds b exit' } :=
    ⟨entry.set b sized, exit.set b exit_sized, queued.sized, queued.marks, queued.once⟩
  have visited {t : LivenessSearch} (searching : g.Searching t)
      (same_entry : t.entry = s.entry.setIfInBounds b entry')
      (same_exit : t.exit = s.exit.setIfInBounds b exit')
      (outcome : entry'.members ⊆ (s.entry.of b).members ∧ t.pending = s.pending ∨
        g.missing t.entry < g.missing s.entry ∧ ∀ c, c ∈ t.pending ↔
          c ∈ s.pending ∨ c ∈ (g.block b).preds ∧ c < g.blocks.size) : g.Visited b s t := by
    refine ⟨searching, fun c other => ?_, fun c other => ?_, fun v => ?_, fun v => ?_,
      outcome.imp_left fun ⟨nothing, waits⟩ => ⟨?_, same_entry ▸ fewer, waits⟩⟩
    · rw [same_exit, of_exit, if_neg other]
    · rw [same_entry, of_entry, if_neg other]
    · rw [same_exit, of_exit, if_pos rfl, mem_exit]
    · rw [same_exit, same_entry, of_exit, of_entry, if_pos rfl, if_pos rfl, mem_entry]
    · rwa [same_entry, of_entry, if_pos rfl]
  cases changed with
  | true =>
    obtain ⟨requeued, same_entry, same_exit, waits⟩ := base.queued.enqueueAll (g.block b).preds
    obtain ⟨v, is_new, fresh⟩ := Set.not_subset.mp (report.mp rfl)
    have member : v ∈ entry'.members := members ▸ .inr is_new
    refine visited ⟨?_, ?_, requeued⟩ same_entry same_exit
      (.inr ⟨same_entry ▸ strictly v member (sized.lt member) fresh, waits⟩)
    · exact same_entry ▸ base.entry
    · exact same_exit ▸ base.exit
  | false =>
    have nothing_new := not_not.mp (mt report.mpr Bool.false_ne_true)
    exact visited base rfl rfl (.inl ⟨(members.trans (Set.union_eq_left.mpr nothing_new)).le, rfl⟩)

/-- What holds between two visits of a graph without phis. -/
structure Settling (g : FlowGraph) (s : LivenessSearch) : Prop extends Searching g s where
  exposed : ∀ b ∈ g.liveBlocks, (g.access b).exposed.members ⊆ (s.entry.of b).members
  carried : ∀ b ∈ g.liveBlocks, ∀ v ∈ (s.exit.of b).members, v ∉ (g.access b).written.members →
    v ∈ (s.entry.of b).members
  /-- A block that does not wait has seen what is live in its successors. -/
  passed : ∀ b ∈ g.liveBlocks, b ∈ s.pending ∨
    ∀ c ∈ g.succIds b, (s.entry.of c).members ⊆ (s.exit.of b).members
  liveIn : ∀ b ∈ g.liveBlocks, ∀ v ∈ (s.entry.of b).members, g.LiveIn v b
  liveOut : ∀ b ∈ g.liveBlocks, ∀ v ∈ (s.exit.of b).members, ∃ c ∈ g.succIds b, g.LiveIn v c

theorem Visited.passed (plain : g.Plain) (visited : g.Visited b s t) {c : Nat}
    (live : c ∈ g.liveBlocks) (before : c ≠ b →
      c ∈ s.pending ∨ ∀ d ∈ g.succIds c, (s.entry.of d).members ⊆ (s.exit.of c).members) :
    c ∈ t.pending ∨ ∀ d ∈ g.succIds c, (t.entry.of d).members ⊆ (t.exit.of c).members := by
  obtain ⟨-, exit_other, entry_other, mem_exit, -, outcome⟩ := visited
  -- more is live in `b` only if the blocks before it wait
  have requeued : c ∈ t.pending ∨
      (b ∈ g.succIds c → (t.entry.of b).members ⊆ (s.entry.of b).members) := by
    rcases outcome with ⟨nothing_new, -, -⟩ | ⟨-, pending_iff⟩
    · exact .inr fun _ => nothing_new
    · by_cases edge : b ∈ g.succIds c
      · exact .inl ((pending_iff c).mpr
          (.inr ⟨(plain.listed c live b edge).2, (g.mem_liveBlocks.mp live).1⟩))
      · exact .inr fun h => absurd h edge
  rcases requeued with again | unchanged
  · exact .inl again
  have seen {d : Nat} (edge : d ∈ g.succIds c) : (t.entry.of d).members ⊆ (s.entry.of d).members := by
    by_cases there : d = b
    · subst there
      exact unchanged edge
    · rw [entry_other d there]
  by_cases here : c = b
  · subst here
    exact .inr fun d edge v member => (mem_exit v).mpr (.inr ⟨d, edge, seen edge member⟩)
  · rw [exit_other c here]
    refine (before here).imp (fun waits => ?_) fun done d edge => (seen edge).trans (done d edge)
    rcases outcome with ⟨-, -, same⟩ | ⟨-, pending_iff⟩
    · exact same ▸ waits
    · exact (pending_iff c).mpr (.inl waits)

/-- The visits to come, at most: one that makes others necessary finds a new binding. -/
def visitsLeft (g : FlowGraph) (s : LivenessSearch) : Nat :=
  g.missing s.entry * g.blocks.size + s.pending.length

theorem Visited.visitsLeft_le (visited : g.Visited b s t) : g.visitsLeft t ≤ g.visitsLeft s := by
  rw [visitsLeft, visitsLeft]
  rcases visited.outcome with ⟨-, fewer, same⟩ | ⟨fewer, -⟩
  · have less := Nat.mul_le_mul_right g.blocks.size fewer
    rw [same]
    omega
  · have less := Nat.mul_le_mul_right g.blocks.size fewer
    have few := visited.queued.length_le
    rw [Nat.succ_mul] at less
    omega

theorem Settling.visit (plain : g.Plain) (settling : g.Settling s) {pending : List Nat}
    (waits : s.pending = b :: pending) :
    g.Settling (g.visitLive (g.access b) { s with pending, queued := s.queued.erase b } b) ∧
      g.visitsLeft (g.visitLive (g.access b) { s with pending, queued := s.queued.erase b } b) <
        g.visitsLeft s := by
  have inside := settling.queued.inside (b := b) (by simp [waits])
  have popped : g.Searching { s with pending, queued := s.queued.erase b } :=
    ⟨settling.entry, settling.exit, settling.queued.pop waits⟩
  have visited := popped.visitLive inside
  generalize g.visitLive (g.access b) { s with pending, queued := s.queued.erase b } b = t at visited ⊢
  have ⟨searching, exit_other, entry_other, mem_exit, mem_entry, _⟩ := visited
  have grown (c : Nat) : (s.entry.of c).members ⊆ (t.entry.of c).members := by
    by_cases here : c = b
    · exact here ▸ fun v member => (mem_entry v).mpr (.inl member)
    · rw [entry_other c here]
  have out_live (live : b ∈ g.liveBlocks) (v : Nat) (member : v ∈ (t.exit.of b).members) :
      ∃ c ∈ g.succIds b, g.LiveIn v c := by
    rcases (mem_exit v).mp member with old | ⟨c, edge, below⟩
    · exact settling.liveOut b live v old
    · exact ⟨c, edge, settling.liveIn c (plain.listed b live c edge).1 v below⟩
  refine ⟨⟨searching, fun c live => (settling.exposed c live).trans (grown c),
    fun c live v member unwritten => ?_, fun c live => visited.passed plain live fun other => ?_,
    fun c live v member => ?_, fun c live v member => ?_⟩, ?_⟩
  · by_cases here : c = b
    · subst here
      exact (mem_entry v).mpr (.inr (.inl ⟨member, unwritten⟩))
    · rw [exit_other c here] at member
      exact grown c (settling.carried c live v member unwritten)
  · exact (settling.passed c live).imp_left fun h => (List.mem_cons.mp (waits ▸ h)).resolve_left other
  · by_cases here : c = b
    · subst here
      have known := (searching.entry.sized c inside).lt member
      rcases (mem_entry v).mp member with old | ⟨below, unwritten⟩ | reads
      · exact settling.liveIn c live v old
      · obtain ⟨d, edge, live_in⟩ := out_live live v below
        exact .through (mt (plain.mem_written live known).mpr unwritten) edge live_in
      · exact .exposed ((plain.mem_exposed live known).mp reads)
    · rw [entry_other c here] at member
      exact settling.liveIn c live v member
  · by_cases here : c = b
    · subst here
      exact out_live live v member
    · rw [exit_other c here] at member
      exact settling.liveOut c live v member
  · refine visited.visitsLeft_le.trans_lt ?_
    simp only [visitsLeft, waits, List.length_cons]
    omega

theorem Settling.settleLive (plain : g.Plain) (settling : g.Settling s) {fuel : Nat}
    (enough : g.visitsLeft s ≤ fuel) :
    g.Settling (g.settleLive g.accesses fuel s) ∧ (g.settleLive g.accesses fuel s).pending = [] := by
  induction fuel generalizing s with
  | zero =>
    have none : s.pending.length = 0 := by
      unfold visitsLeft at enough
      omega
    exact ⟨settling, List.eq_nil_of_length_eq_zero none⟩
  | succ fuel ih =>
    unfold FlowGraph.settleLive
    split
    · rename_i none
      exact ⟨settling, none⟩
    · rename_i b pending waits
      rw [g.accesses_getD (settling.queued.inside (by simp [waits]))]
      obtain ⟨next, fewer⟩ := settling.visit plain waits
      exact ih next (by omega)

/-! The result. -/

theorem noneLive_sized (g : FlowGraph) : g.noneLive.Sized g.blocks.size g.bindings.size :=
  .none g.blocks.size g.bindings.size

theorem not_mem_noneLive (g : FlowGraph) (b v : Nat) : v ∉ (g.noneLive.of b).members := by
  have outside : (default : BitSet).members = ∅ := BitSet.members_empty 0
  simp only [BindingSets.of, noneLive, Array.getD_eq_getD_getElem?, Array.getElem?_replicate]
  split <;> simp [BitSet.members_empty, outside]

/-- At first only what a block reads first is known to be live on entry. -/
theorem startEntry_spec (g : FlowGraph) :
    (g.startEntry g.accesses g.noneLive).Sized g.blocks.size g.bindings.size ∧
      ∀ b ∈ g.liveBlocks, ((g.startEntry g.accesses g.noneLive).of b).members =
        (g.access b).exposed.members := by
  have none := g.noneLive_sized
  obtain ⟨size, of_entry⟩ := g.noneLive.of_setAll (fun b => (g.accesses.getD b default).exposed.union
    ((g.noneLive.of b).diff (g.accesses.getD b default).written)) g.liveBlocks
  have of_live {b : Nat} (live : b ∈ g.liveBlocks) :
      ((g.startEntry g.accesses g.noneLive).of b).Sized g.bindings.size ∧
        ((g.startEntry g.accesses g.noneLive).of b).members = (g.access b).exposed.members := by
    have inside := (g.mem_liveBlocks.mp live).1
    obtain ⟨exposed, written⟩ := g.access_sized b
    obtain ⟨carried, carried_members⟩ := (none.sized b inside).diff written
    obtain ⟨sized, members⟩ := exposed.union carried.fits carried.room.le
    rw [startEntry, of_entry, if_pos ⟨live, none.size_eq.symm ▸ inside⟩, g.accesses_getD inside]
    refine ⟨sized, members.trans (Set.union_eq_left.mpr fun v member => ?_)⟩
    rw [carried_members] at member
    exact absurd member.1 (g.not_mem_noneLive b v)
  refine ⟨⟨size.trans none.size_eq, fun b inside => ?_⟩, fun b live => (of_live live).2⟩
  by_cases live : b ∈ g.liveBlocks
  · exact (of_live live).1
  · rw [startEntry, of_entry, if_neg fun h => live h.1]
    exact none.sized b inside

theorem Plain.settling_start (plain : g.Plain) : g.Settling (g.startLive g.accesses) := by
  obtain ⟨sized, reads⟩ := g.startEntry_spec
  simp only [startLive, plain.phiReads_eq_nil, List.foldl_nil]
  obtain ⟨queued, same_entry, same_exit, waits⟩ := LivenessSearch.Queued.enqueueAll
    (s := ⟨g.startEntry g.accesses g.noneLive, g.noneLive, [], .empty g.blocks.size⟩)
    ⟨.empty _, by simp [BitSet.members_empty], List.nodup_nil⟩
    ((g.view .all).postorder enter ++ g.liveBlocks)
  refine ⟨⟨same_entry ▸ sized, same_exit ▸ g.noneLive_sized, queued⟩, fun b live => ?_,
    fun b live v member => ?_, fun b live => .inl ((waits b).mpr (.inr ?_)), fun b live v member => ?_,
    fun b live v member => ?_⟩
  · rw [same_entry, reads b live]
  · rw [same_exit] at member
    exact absurd member (g.not_mem_noneLive b v)
  · exact ⟨List.mem_append_right _ live, (g.mem_liveBlocks.mp live).1⟩
  · rw [same_entry, reads b live] at member
    exact .exposed ((plain.mem_exposed live ((g.access_sized b).1.lt member)).mp member)
  · rw [same_exit] at member
    exact absurd member (g.not_mem_noneLive b v)

/-- The search ends, with no block left that waits. -/
theorem Plain.settled (plain : g.Plain) :
    ∃ s, g.Settling s ∧ s.pending = [] ∧ g.liveness.entry = s.entry ∧ g.liveness.exit = s.exit := by
  have enough : g.visitsLeft (g.startLive g.accesses) ≤
      g.blocks.size * (g.blocks.size * g.bindings.size + 1) := by
    have few := plain.settling_start.queued.length_le
    have missing : g.missing (g.startLive g.accesses).entry ≤ g.blocks.size * g.bindings.size := by
      have each := Finset.sum_le_card_nsmul (Finset.range g.blocks.size) (fun b =>
        ((Finset.range g.bindings.size).filter fun v =>
          ((g.startLive g.accesses).entry.of b).contains v = false).card) g.bindings.size
        fun b _ => (Finset.card_filter_le _ _).trans_eq (Finset.card_range _)
      rwa [Finset.card_range] at each
    have product := Nat.mul_le_mul_right g.blocks.size missing
    rw [visitsLeft, Nat.mul_add, Nat.mul_one, Nat.mul_comm g.blocks.size (_ * _)]
    omega
  obtain ⟨settling, done⟩ := plain.settling_start.settleLive plain enough
  exact ⟨_, settling, done, rfl, rfl⟩

namespace Plain

variable (plain : g.Plain) {b v : Nat} (live : b ∈ g.liveBlocks)
include plain live

theorem isLiveIn_iff (known : v < g.bindings.size) :
    g.liveness.isLiveIn v b = true ↔ g.LiveIn v b := by
  obtain ⟨s, settling, done, entry, -⟩ := plain.settled
  rw [Liveness.isLiveIn, entry]
  refine ⟨settling.liveIn b live v, fun live_in => ?_⟩
  -- what is live in a successor has arrived, since no block waits
  have passed {c : Nat} (c_live : c ∈ g.liveBlocks) := (settling.passed c c_live).resolve_left
    (by simp [done])
  change v ∈ (s.entry.of b).members
  induction live_in with
  | exposed reads => exact settling.exposed _ live ((plain.mem_exposed live known).mpr reads)
  | through unwritten edge _ ih =>
    refine settling.carried _ live v (passed live _ edge (ih (plain.listed _ live _ edge).1)) ?_
    exact mt (plain.mem_written live known).mp unwritten

end Plain

theorem crossing_spec (g : FlowGraph) : g.liveness.crossing.Sized g.bindings.size ∧
    ∀ v, v ∈ g.liveness.crossing.members ↔
      ∃ b ∈ g.liveBlocks, v ∈ (g.access b).exposed.members := by
  have inside {b : Nat} (live : b ∈ g.liveBlocks) := g.accesses_getD (g.mem_liveBlocks.mp live).1
  obtain ⟨sized, mem⟩ := (BitSet.Sized.empty g.bindings.size).unionAll
    (fun b => (g.accesses.getD b default).exposed) g.liveBlocks fun b live => by
      rw [inside live]
      exact ⟨(g.access_sized b).1.fits, (g.access_sized b).1.room.le⟩
  refine ⟨sized, fun v => (mem v).trans ?_⟩
  simp only [BitSet.members_empty, Set.mem_empty_iff_false, false_or]
  exact exists_congr fun b => and_congr_right fun live => by rw [inside live]

theorem mem_globals (g : FlowGraph) {v : Nat} : v ∈ g.liveness.globals ↔
    ∃ b ∈ g.liveBlocks, v ∈ (g.access b).exposed.members := by
  rw [Liveness.globals, g.crossing_spec.1.mem_toList, g.crossing_spec.2]

theorem inside_of_global (g : FlowGraph) {v : Nat} (global : v ∈ g.liveness.globals) :
    v < g.bindings.size := by
  obtain ⟨b, _, reads⟩ := g.mem_globals.mp global
  exact (g.access_sized b).1.lt reads

namespace WellFormed

variable (wf : g.WellFormed)
include wf

theorem plain_of_mem {b i : Nat} (member : i ∈ (g.block b).instrs) : (g.instr i).isPhi = false :=
  wf.unmerged i (wf.placed b i member).1

theorem mem_liveBlocks_of_instrs {b : Nat} (some_instr : (g.block b).instrs ≠ []) :
    b ∈ g.liveBlocks := by
  refine g.mem_liveBlocks.mpr ⟨g.inside_of_instrs some_instr, ?_⟩
  by_contra gone
  exact some_instr (wf.bare b (by simpa using gone)).1

theorem plain : g.Plain :=
  ⟨fun b _ c edge => ⟨g.mem_liveBlocks.mpr ⟨wf.target_inside edge, wf.target_live edge⟩,
    (wf.symm b c).mp edge⟩, fun _ _ _ => wf.plain_of_mem⟩

theorem inside_of_readsFirst {v : Nat} {is : List InstrId}
    (placed : ∀ i : Nat, i ∈ is → i < g.instrs.size) (reads : g.ReadsFirst v is) :
    v < g.bindings.size := by
  induction is with
  | nil => cases reads
  | cons i is ih =>
    rcases reads with here | ⟨_, later⟩
    · exact (wf.inScope i (placed i (by simp))).operands v here
    · exact ih (fun j member => placed j (by simp [member])) later

/-- Every binding that may still be read is found to be live and global. -/
theorem liveness_complete {v b : Nat} (live_in : g.LiveIn v b) :
    g.liveness.isLiveIn v b = true ∧ v ∈ g.liveness.globals := by
  have here : b ∈ g.liveBlocks ∧ ∃ c ∈ g.liveBlocks, g.ReadsFirst v (g.block c).instrs := by
    induction live_in with
    | @exposed b reads =>
      have live : b ∈ g.liveBlocks := wf.mem_liveBlocks_of_instrs fun none => by
        rw [none] at reads
        exact reads
      exact ⟨live, b, live, reads⟩
    | @through b c _ edge _ ih =>
      exact ⟨g.mem_liveBlocks.mpr ⟨Linked.source_inside b c edge, wf.source_live edge⟩, ih.2⟩
  obtain ⟨live, c, c_live, reads⟩ := here
  have known := wf.inside_of_readsFirst (fun i member => (wf.placed c i member).1) reads
  exact ⟨(wf.plain.isLiveIn_iff live known).mpr live_in,
    g.mem_globals.mpr ⟨c, c_live, (wf.plain.mem_exposed c_live known).mpr reads⟩⟩

end WellFormed

/-! Paths. -/

end FlowGraph

end ScriptFlow
