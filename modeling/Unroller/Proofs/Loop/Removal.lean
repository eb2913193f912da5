import Mathlib.Tactic
import Unroller.Proofs.Cloning.Allotment
import Unroller.Proofs.Loop.Stitching

/-!
# What unrolling adds and removes

Whatever graph a loop is unrolled in, blocks are only added until the end, and then those are
removed that are not reachable.  So the blocks reported as removed are the ones that were there, or
were added on the way, and are gone.

* `unrollLoop_eq_ok`: the parts of an unrolling that succeeds.
* `Removes`: blocks that are gone, and the indices reported for them.
* `slots_copyBodies`: making copies adds blocks at the end.
* `removes_finalize`: cleaning up reports what it removes.
* `removes_unrollLoop`: so does unrolling, and it reports each block once.
-/

namespace Unroller

open Unroller.Graph Cloning

variable {g h k : Graph} {shape : LoopShape} {config : UnrollConfig} {s t : Session}
  {b c following : BlockId} {removed : List BlockId}

namespace Graph

/-! ## Reachability and slots -/

/-- Blocks were edited, none was added or removed, and nothing else has changed. -/
def BlocksEdited (g k : Graph) : Prop := k = { g with blocks := k.blocks } ∧ k.slots = g.slots

theorem BlocksEdited.modifyBlock (hk : BlocksEdited g k) (b : BlockId) {change : Block → Block}
    (hindex : ∀ block, (change block).index = block.index) :
    BlocksEdited g (k.modifyBlock b change) := by
  obtain ⟨heq, hslots⟩ := hk
  exact ⟨by rw [Graph.modifyBlock, heq], (slots_modifyBlock k b hindex).trans hslots⟩

theorem BlocksEdited.foldl {α : Type} {f : Graph → α → Graph}
    (hf : ∀ k a, BlocksEdited g k → BlocksEdited g (f k a)) (as : List α)
    (hk : BlocksEdited g k) : BlocksEdited g (as.foldl f k) := by
  induction as generalizing k with
  | nil => exact hk
  | cons a as ih => exact ih (hf k a hk)

/-- Recomputing reachability edits blocks. -/
theorem blocksEdited_resetReachability (g : Graph) : BlocksEdited g g.resetReachability := by
  have hclear : BlocksEdited g g.clearReachability := by
    refine ⟨rfl, ?_⟩
    simp only [clearReachability, slots, Array.map_map]
    congr 1
    funext slot
    cases slot <;> rfl
  rw [resetReachability]
  split
  · refine hclear.foldl (fun k b hk => ?_) _
    refine BlocksEdited.modifyBlock (.foldl (fun k target hk => ?_) _ hk) b ?_
    · exact hk.modifyBlock target fun block => apply_ite Block.index _ _ _ |>.trans (ite_self _)
    · exact fun _ => rfl
  · exact hclear

theorem slots_dethread (g : Graph) : g.dethread.slots = g.slots := by
  rcases g.dethread_eq with ⟨heq, _⟩ | heq <;> rw [heq]
  rw [dropOperands_eq]
  rfl

/-- The index of the block in a slot; a block added there later has that of its slot. -/
def indexAt (g : Graph) (b : BlockId) : BlockId := ((g.block? b).map Block.index).getD b

theorem Numbered.indexAt_eq (hg : g.Numbered) (b : BlockId) : g.indexAt b = b := by
  rw [indexAt]
  cases hb : g.block? b with
  | none => rfl
  | some block => exact hg b block hb

/-- The indices `removed` are reported for slots that are emptied between two graphs: those that
held a block of `g`, or one added since. -/
structure Removes (g k : Graph) (slots removed : List BlockId) : Prop where
  size_le : g.blocks.size ≤ k.blocks.size
  nodup : slots.Nodup
  mem_iff : ∀ b : Nat, b ∈ slots ↔
    (g.isLive b = true ∨ g.blocks.size ≤ b ∧ b < k.blocks.size) ∧ k.isLive b = false
  removed_eq : removed = slots.map g.indexAt

/-- The slots themselves are reported where every block is in the slot of its index. -/
theorem Removes.eq_slots {slots : List BlockId} (h : Removes g k slots removed) (hg : g.Numbered) :
    removed = slots := by
  rw [h.removed_eq, funext hg.indexAt_eq, List.map_id']

/-- Blocks that are added at the end have the indices of their slots. -/
theorem index_of_added {n : Nat} (hslots : h.slots = g.slots ++ addedSlots g.blocks.size n)
    (b : Nat) : (h.block? b).map Block.index =
      if b < g.blocks.size then (g.block? b).map Block.index
      else if b < g.blocks.size + n then some b else none := by
  rw [index_eq_slots, index_eq_slots, hslots]
  simp only [Array.getD_eq_getD_getElem?, Array.getElem?_append, size_slots]
  by_cases hb : b < g.blocks.size
  · simp [hb]
  · have hiff := Nat.sub_lt_iff_lt_add' (c := n) (Nat.le_of_not_lt hb)
    by_cases hn : b < g.blocks.size + n
    · have hsum : g.blocks.size + (b - g.blocks.size) = b := by omega
      simp [hb, hn, addedSlots, hiff, hsum]
    · simp [hb, hn, addedSlots, hiff]

/-- Blocks may be added at the end before others are removed. -/
theorem Removes.of_added {slots : List BlockId} {n : Nat} (hr : Removes h k slots removed)
    (hslots : h.slots = g.slots ++ addedSlots g.blocks.size n) : Removes g k slots removed := by
  have hsize : h.blocks.size = g.blocks.size + n := by
    rw [← size_slots, hslots, Array.size_append, size_slots, size_addedSlots]
  have hle := hr.size_le
  have hnone : ∀ b : Nat, ¬ b < g.blocks.size → g.block? b = none := fun b hb =>
    Option.eq_none_iff_forall_ne_some.2 fun block hblock => hb (lt_size_of_block? hblock)
  have hlive : ∀ b : Nat, h.isLive b = true ↔
      g.isLive b = true ∨ g.blocks.size ≤ b ∧ b < h.blocks.size := by
    intro b
    have hindex := congrArg Option.isSome (index_of_added hslots b)
    rw [Option.isSome_map] at hindex
    rw [isLive, hindex, hsize]
    by_cases hb : b < g.blocks.size
    · simp [hb, isLive, Nat.not_le_of_lt hb]
    · by_cases hn : b < g.blocks.size + n <;> simp [hb, hn, isLive, hnone b hb, Nat.le_of_not_lt hb]
  refine ⟨hsize ▸ hle |>.trans' (Nat.le_add_right _ _), hr.nodup,
    fun b => (hr.mem_iff b).trans (and_congr_left fun _ => ?_), ?_⟩
  · rw [hlive, or_assoc]
    refine or_congr_right ⟨?_, ?_⟩
    · rintro (⟨hb, hlt⟩ | ⟨hb, hlt⟩) <;> constructor <;> omega
    · rintro ⟨hb, hlt⟩
      exact (Nat.lt_or_ge b h.blocks.size).imp (⟨hb, ·⟩) (⟨·, hlt⟩)
  · rw [hr.removed_eq]
    refine List.map_congr_left fun b _ => ?_
    rw [indexAt, indexAt, index_of_added hslots]
    by_cases hb : b < g.blocks.size
    · rw [if_pos hb]
    · rw [if_neg hb, hnone b hb]
      split <;> rfl

/-- **Killing** reports the indices of the blocks whose slots are emptied. -/
theorem removes_killUnreachable (g : Graph) :
    Removes g g.killUnreachable.2 g.unreachableSlots g.killUnreachable.1 := by
  have hsize := (killed_killUnreachable g).size
  refine ⟨hsize.ge, (pairwise_lt_unreachableSlots g).imp Nat.ne_of_lt, fun b => ?_, ?_⟩
  · have hnone : ¬ (g.blocks.size ≤ b ∧ b < g.killUnreachable.2.blocks.size) := by omega
    rw [mem_unreachableSlots, or_iff_left hnone, isLive, isLive, block?_killUnreachable]
    cases g.block? b with
    | none => simp
    | some block => cases hreach : block.flags.reachable <;> simp [Option.filter, hreach]
  · refine List.map_injective_iff.2 (Option.some_injective _) ?_
    rw [killUnreachable_fst, map_unreachableIds, List.map_map]
    refine List.map_congr_left fun b hb => ?_
    obtain ⟨block, hblock, _⟩ := mem_unreachableSlots.1 hb
    simp [indexAt, hblock]

end Graph

/-! ## Cleaning up -/

/-- Cleaning up ends with the killing of blocks in a graph that has the same slots. -/
theorem finalize_eq (s : Session) :
    ∃ g : Graph, g.slots = s.graph.slots ∧ g.Uncached ∧
      s.finalize = (g.killUnreachable.1, onto s g.killUnreachable.2) := by
  have hend : ∀ k : Graph, k.slots = s.graph.slots → k.Uncached →
      k.resetReachability.slots = s.graph.slots ∧ k.resetReachability.Uncached := by
    intro k hslots hcache
    obtain ⟨heq, hsame⟩ := blocksEdited_resetReachability k
    refine ⟨hsame.trans hslots, ?_⟩
    rw [heq]
    exact hcache
  have hdethread := hend (s.graph.invalidate.dethread) (slots_dethread _)
    (uncached_dethread ⟨rfl, rfl⟩)
  by_cases hp : s.graph.pending = 0
  · refine ⟨_, hdethread.1, hdethread.2, ?_⟩
    simp [Session.finalize, commitInsertions, hp, onto]
  · obtain ⟨hslots, hcache⟩ := hend ({ s.graph with pending := 0 }.invalidate.dethread)
      (slots_dethread _) (uncached_dethread ⟨rfl, rfl⟩)
    refine ⟨_, hslots, hcache, ?_⟩
    simp [Session.finalize, commitInsertions, hp, onto]

theorem size_finalize (s : Session) :
    s.finalize.2.graph.blocks.size = s.graph.blocks.size := by
  obtain ⟨g, hslots, _, heq⟩ := finalize_eq s
  rw [heq]
  exact (killed_killUnreachable g).size.trans (size_eq_of_slots hslots)

/-- **Cleaning up** reports the blocks that are gone, each once. -/
theorem removes_finalize (s : Session) :
    (∃ slots, Removes s.graph s.finalize.2.graph slots s.finalize.1) ∧
      s.finalize.2.graph.Uncached := by
  obtain ⟨g, hslots, hcache, heq⟩ := finalize_eq s
  rw [heq]
  refine ⟨⟨g.unreachableSlots, (removes_killUnreachable g).of_added (n := 0) ?_⟩,
    uncached_killUnreachable hcache⟩
  simp [hslots, addedSlots]

/-! ## Unrolling -/

theorem slots_stitch {source copy : BlockId} {handled : Bool}
    (hok : shape.stitch following source copy g = .ok handled h) : h.slots = g.slots := by
  unfold LoopShape.stitch at hok
  split at hok
  · cases hfull : shape.isFull with
    | true =>
      simp only [hfull, if_true] at hok
      obtain ⟨_, k, hedit, hlast⟩ := Cloning.bind_eq_ok hok
      cases hlast
      exact slots_convertToJump (editGraph_eq_ok_iff.1 hedit)
    | false =>
      simp only [hfull, Bool.false_eq_true, if_false] at hok
      obtain ⟨_, k₁, hedit₁, hok⟩ := Cloning.bind_eq_ok hok
      obtain ⟨_, k₂, hedit₂, hlast⟩ := Cloning.bind_eq_ok hok
      cases hlast
      rw [slots_setSuccessor (editGraph_eq_ok_iff.1 hedit₂),
        slots_setSuccessor (editGraph_eq_ok_iff.1 hedit₁)]
  · cases hok
    rfl

/-- **Making copies** adds blocks at the end. -/
theorem slots_copyBodies {count : Nat} (hok : shape.copyBodies count following s = .ok c t) :
    ∃ n, t.graph.slots = s.graph.slots ++ addedSlots s.graph.blocks.size n := by
  induction count generalizing s following with
  | zero =>
    cases hok
    exact ⟨0, by simp [addedSlots]⟩
  | succ count ih =>
    rw [LoopShape.copyBodies] at hok
    obtain ⟨_, s₁, hclear, hok⟩ := Cloning.bind_eq_ok hok
    cases hclear
    obtain ⟨copy, s₂, hblock, hok⟩ := Cloning.bind_eq_ok hok
    have hhook : ∀ source copy k handled h,
        shape.stitch following source copy k = .ok handled h → h.slots = k.slots :=
      fun _ _ _ _ _ => slots_stitch
    obtain ⟨made, hmade⟩ := allots_of_block hhook hblock
    obtain ⟨n, hn⟩ := ih hok
    refine ⟨made.length + n, ?_⟩
    rw [hn, hmade.slots, hmade.size, Array.append_assoc]
    exact congrArg (s.graph.slots ++ ·) (addedSlots_append _ _ _)

/-- The parts of an unrolling that succeeds. -/
theorem unrollLoop_eq_ok (hok : Graph.unrollLoop config shape g = .ok removed k) :
    ∃ first s h, shape.copyBodies (shape.extraCopies config)
        (if shape.isFull then shape.next else shape.header) { graph := g } = .ok first s ∧
      (if shape.isFull then s.graph.convertToJump shape.tail first
        else s.graph.setSuccessor shape.tail shape.inLoopSlot first) = .ok h ∧
      removed = (onto s h).finalize.1 ∧ k = (onto s h).finalize.2.graph := by
  unfold Graph.unrollLoop at hok
  split at hok
  · rename_i removed' session hunroll
    cases hok
    obtain ⟨first, s, hcopies, hunroll⟩ := Cloning.bind_eq_ok hunroll
    obtain ⟨_, s₁, htry, hfinal⟩ := Cloning.bind_eq_ok hunroll
    cases hedit : (if shape.isFull then s.graph.convertToJump shape.tail first
        else s.graph.setSuccessor shape.tail shape.inLoopSlot first) with
    | error e =>
      simp only [tryGraph, hedit, Except.map] at htry
      cases htry
    | ok h =>
      simp only [tryGraph, hedit, Except.map] at htry
      cases htry
      rw [Cloning.finalize] at hfinal
      split at hfinal <;> cases hfinal
      exact ⟨first, s, h, hcopies, hedit, rfl, rfl⟩
  · cases hok

/-- Leading the tail of the loop elsewhere adds and removes no block. -/
theorem slots_edit {first : BlockId} (hedit : (if shape.isFull then g.convertToJump shape.tail first
    else g.setSuccessor shape.tail shape.inLoopSlot first) = .ok h) : h.slots = g.slots := by
  split at hedit
  · exact slots_convertToJump hedit
  · exact slots_setSuccessor hedit

/-- **The blocks reported as removed** are those that were there before, or were added, and are
gone; each is reported once, by its index. -/
theorem removes_unrollLoop (hok : Graph.unrollLoop config shape g = .ok removed k) :
    ∃ slots, Removes g k slots removed := by
  obtain ⟨first, s, h, hcopies, hedit, rfl, rfl⟩ := unrollLoop_eq_ok hok
  obtain ⟨n, hslots⟩ := slots_copyBodies hcopies
  rw [← slots_edit hedit] at hslots
  obtain ⟨slots, hremoves⟩ := (removes_finalize (onto s h)).1
  exact ⟨slots, hremoves.of_added hslots⟩

/-- Unrolling keeps no analysis. -/
theorem uncached_unrollLoop (hok : Graph.unrollLoop config shape g = .ok removed k) :
    k.Uncached := by
  obtain ⟨first, s, h, _, _, _, rfl⟩ := unrollLoop_eq_ok hok
  exact (removes_finalize (onto s h)).2

end Unroller
