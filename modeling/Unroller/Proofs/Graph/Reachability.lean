import Mathlib.Tactic
import Unroller.Proofs.Digraph.Searches
import Unroller.Proofs.Graph.Reading

/-!
# Recomputing reachability

`withReach` gives every block a reachability flag and a predecessor list and leaves all else as it
is.  Recomputing reachability is such an update, with the vertices that a search from the entry
lists as the reachable ones (`resetReachability_eq`), or none if the entry was killed
(`resetReachability_eq_withReach`).

* `ReachExact`: flags and predecessor lists are those of the control-flow graph.
* `reachExact_resetReachability`: they are so after a recomputation.
* `block?_killUnreachable`: killing then keeps the reachable blocks only.
-/

namespace Unroller

/-- The block with another reachability flag and other predecessors. -/
def Block.withReach (block : Block) (reachable : Bool) (preds : List BlockId) : Block :=
  { block with flags := { block.flags with reachable := reachable }, preds := preds }

namespace Graph

/-- The graph with other reachability flags and predecessor lists. -/
def withReach (g : Graph) (reachable : BlockId → Bool) (preds : BlockId → List BlockId) : Graph :=
  { g with blocks := g.blocks.mapIdx fun i slot => slot.map (·.withReach (reachable i) (preds i)) }

section withReach

variable (g : Graph) (r : BlockId → Bool) (p : BlockId → List BlockId)

@[simp] theorem block?_withReach (b : BlockId) :
    (g.withReach r p).block? b = (g.block? b).map (·.withReach (r b) (p b)) := by
  simp only [block?_eq_getElem?, withReach, Array.getElem?_mapIdx]
  cases g.blocks[b]? <;> simp

@[simp] theorem isLive_withReach (b : BlockId) : (g.withReach r p).isLive b = g.isLive b := by
  simp [isLive]

@[simp] theorem size_blocks_withReach : (g.withReach r p).blocks.size = g.blocks.size := by
  simp [withReach]

@[simp] theorem terminalNode?_withReach (b : BlockId) :
    (g.withReach r p).terminalNode? b = g.terminalNode? b := by
  rw [terminalNode?, terminalNode?, block?_withReach]
  cases g.block? b <;> rfl

@[simp] theorem successors_withReach (b : BlockId) :
    (g.withReach r p).successors b = g.successors b :=
  successors_congr rfl rfl (congrArg _ (g.terminalNode?_withReach r p b))

@[simp] theorem successor?_withReach (b : BlockId) (slot : Nat) :
    (g.withReach r p).successor? b slot = g.successor? b slot :=
  successor?_congr (h := g.withReach r p) (g := g) rfl rfl
    (congrArg _ (g.terminalNode?_withReach r p b)) slot

@[simp] theorem flow_withReach : (g.withReach r p).flow = g.flow := by
  rw [flow, flow, size_blocks_withReach]
  congr 1
  funext b
  exact successors_withReach g r p b

/-- Changing flag and predecessors of one block. -/
theorem modifyBlock_withReach (b : BlockId) (change : Block → Block) (r' : Bool)
    (p' : List BlockId)
    (hchange : ∀ block : Block, change (block.withReach (r b) (p b)) = block.withReach r' p') :
    (g.withReach r p).modifyBlock b change =
      g.withReach (Function.update r b r') (Function.update p b p') := by
  simp only [modifyBlock, withReach, Graph.mk.injEq, true_and, and_true]
  refine Array.ext_getElem? fun i => ?_
  rw [Array.getElem?_modify, Array.getElem?_mapIdx, Array.getElem?_mapIdx]
  by_cases hi : b = i
  · subst hi
    cases g.blocks[b]? with
    | none => simp
    | some slot => cases slot <;> simp [hchange]
  · simp [hi, Function.update_of_ne (Ne.symm hi)]

/-! ## One block at a time -/

theorem addPredecessor_withReach (source target : BlockId) :
    (g.withReach r p).addPredecessor source target =
      g.withReach r fun i => if i = target ∧ source ∉ p i then p i ++ [source] else p i := by
  rw [addPredecessor, modifyBlock_withReach g r p target _ (r target)
    (if source ∉ p target then p target ++ [source] else p target)]
  · congr 1
    · simp
    · funext i
      by_cases hi : i = target
      · subst hi
        simp
      · simp [hi]
  · intro block
    by_cases h : source ∈ p target <;> simp [Block.withReach, h]

theorem foldl_addPredecessor_withReach (source : BlockId) (targets : List BlockId) :
    targets.foldl (fun g target => g.addPredecessor source target) (g.withReach r p) =
      g.withReach r fun i => if i ∈ targets ∧ source ∉ p i then p i ++ [source] else p i := by
  induction targets generalizing p with
  | nil => simp
  | cons t ts ih =>
    rw [List.foldl_cons, addPredecessor_withReach, ih]
    congr 1
    funext i
    by_cases ht : i = t <;> by_cases hs : source ∈ p i <;> simp [ht, hs]
    · simp [← ht, hs]
    · simp [← ht, hs]

theorem markReachable_withReach (b : BlockId) (hb : ∀ i, b ∉ p i) :
    (g.withReach r p).markReachable b =
      g.withReach (Function.update r b true)
        fun i => if i ∈ g.successors b then p i ++ [b] else p i := by
  rw [markReachable, successors_withReach, foldl_addPredecessor_withReach]
  simp only [hb, not_false_eq_true, and_true]
  rw [modifyBlock_withReach g _ _ b _ true
    ((fun i => if i ∈ g.successors b then p i ++ [b] else p i) b) fun block => rfl,
    Function.update_eq_self]

/-- Marking a list of blocks, each once. -/
theorem foldl_markReachable_withReach (done order : List BlockId) (hn : (done ++ order).Nodup) :
    order.foldl markReachable
        (g.withReach (fun i => decide (i ∈ done))
          fun i => done.filter fun q => decide (i ∈ g.successors q)) =
      g.withReach (fun i => decide (i ∈ done ++ order))
        fun i => (done ++ order).filter fun q => decide (i ∈ g.successors q) := by
  induction order generalizing done with
  | nil => simp
  | cons b order ih =>
    have hb : b ∉ done := by
      intro hmem
      exact (List.nodup_append.1 hn).2.2 b hmem b (List.mem_cons_self ..) rfl
    have hmark := g.markReachable_withReach (fun i => decide (i ∈ done))
      (fun i => done.filter fun q => decide (i ∈ g.successors q)) b
      (fun i hmem => hb (List.mem_filter.1 hmem).1)
    rw [List.foldl_cons, hmark]
    have hsplit : done ++ b :: order = (done ++ [b]) ++ order := by simp
    rw [hsplit] at hn ⊢
    rw [← ih (done ++ [b]) hn]
    congr 2
    · funext i
      by_cases hi : i = b <;> simp [hi]
    · funext i
      by_cases hi : i ∈ g.successors b <;> simp [hi]

end withReach

/-! ## All blocks -/

variable {g : Graph} {b : BlockId} {block : Block}

theorem clearReachability_eq (g : Graph) :
    g.clearReachability = g.withReach (fun _ => false) fun _ => [] := by
  simp only [clearReachability, withReach, Graph.mk.injEq, true_and, and_true]
  refine Array.ext_getElem? fun i => ?_
  simp only [Array.getElem?_map, Array.getElem?_mapIdx]
  rfl

/-- **Recomputing reachability** marks what a search from the entry lists, and a block's
predecessors are the listed blocks that lead to it. -/
theorem resetReachability_eq (hentry : g.isLive entry = true) :
    g.resetReachability =
      g.withReach (fun b => decide (b ∈ g.flow.pushOrder entry))
        fun b => (g.flow.pushOrder entry).filter fun q => decide (b ∈ g.successors q) := by
  have h := g.foldl_markReachable_withReach [] (g.flow.pushOrder entry)
    (by simpa using Digraph.nodup_pushOrder entry)
  rw [resetReachability, clearReachability_eq]
  simpa [hentry] using h

/-- The blocks that a recomputation of reachability goes through, in order. -/
def searched (g : Graph) : List BlockId := if g.isLive entry then g.flow.pushOrder entry else []

/-- Also where there is no entry, nothing but flags and predecessor lists changes. -/
theorem resetReachability_eq_withReach (g : Graph) :
    g.resetReachability = g.withReach (fun b => decide (b ∈ g.searched))
      fun b => g.searched.filter fun q => decide (b ∈ g.successors q) := by
  by_cases hentry : g.isLive entry = true
  · rw [resetReachability_eq hentry, searched, if_pos hentry]
  · have hclear : g.resetReachability = g.clearReachability := by
      simp [resetReachability, clearReachability_eq, hentry]
    rw [hclear, clearReachability_eq, searched, if_neg hentry]
    simp

theorem exists_withReach (g : Graph) :
    ∃ reachable preds, g.resetReachability = g.withReach reachable preds :=
  ⟨_, _, g.resetReachability_eq_withReach⟩

/-- Flags and predecessor lists are those of the control-flow graph. -/
structure ReachExact (g : Graph) : Prop where
  reachable_iff : ∀ b block, g.block? b = some block →
    (block.flags.reachable = true ↔ g.flow.Reaches entry b)
  mem_preds_iff : ∀ b block, g.block? b = some block →
    ∀ q, q ∈ block.preds ↔ g.flow.Reaches entry q ∧ b ∈ g.successors q
  nodup_preds : ∀ b block, g.block? b = some block → block.preds.Nodup

theorem reachExact_resetReachability (hentry : g.isLive entry = true) :
    g.resetReachability.ReachExact := by
  rw [resetReachability_eq hentry]
  refine ⟨?_, ?_, ?_⟩
  all_goals
    intro b block hb
    rw [block?_withReach, Option.map_eq_some_iff] at hb
    obtain ⟨old, _, rfl⟩ := hb
  · simp [Block.withReach, Digraph.mem_pushOrder]
  · intro q
    simp [Block.withReach, Digraph.mem_pushOrder, List.mem_filter]
  · exact (Digraph.nodup_pushOrder entry).filter _

/-! ## Killing -/

theorem mem_unreachableIds : b ∈ g.unreachableIds ↔
    ∃ slot block, g.block? slot = some block ∧ block.flags.reachable = false ∧ block.index = b := by
  simp only [unreachableIds, List.mem_map, List.mem_filter, Prod.exists, mem_liveBlocks,
    Bool.not_eq_true', and_assoc]

theorem unreachableIds_eq_nil_iff :
    g.unreachableIds = [] ↔ ∀ b block, g.block? b = some block → block.flags.reachable = true := by
  simp only [unreachableIds, List.map_eq_nil_iff, List.filter_eq_nil_iff, Prod.forall,
    mem_liveBlocks, Bool.not_eq_true', Bool.not_eq_false]

/-- The slots of the live blocks that are not marked reachable, in ascending order. -/
def unreachableSlots (g : Graph) : List BlockId :=
  (g.liveBlocks.filter fun e => !e.2.flags.reachable).map fun e => e.1

theorem mem_unreachableSlots : b ∈ g.unreachableSlots ↔
    ∃ block, g.block? b = some block ∧ block.flags.reachable = false := by
  simp only [unreachableSlots, List.mem_map, List.mem_filter, Prod.exists, exists_and_right,
    exists_eq_right, mem_liveBlocks, Bool.not_eq_true']

theorem pairwise_lt_unreachableSlots (g : Graph) : g.unreachableSlots.Pairwise (· < ·) :=
  List.pairwise_map.2 ((pairwise_lt_liveBlocks g).filter _)

/-- The blocks in these slots have the indices that are listed, -/
theorem map_unreachableIds (g : Graph) : g.unreachableIds.map some =
    g.unreachableSlots.map fun b => (g.block? b).map Block.index := by
  rw [unreachableIds, unreachableSlots, List.map_map, List.map_map]
  refine List.map_congr_left fun e he => ?_
  simp [mem_liveBlocks.1 (List.mem_filter.1 he).1]

/-- which are the slots when every block is in the slot of its index. -/
theorem Numbered.unreachableIds_eq (hg : g.Numbered) : g.unreachableIds = g.unreachableSlots :=
  hg.map_index _

theorem killUnreachable_fst (g : Graph) : g.killUnreachable.1 = g.unreachableIds := by
  rw [killUnreachable]
  split
  · rename_i hempty
    exact (List.isEmpty_iff.1 hempty).symm
  · rfl

/-- A killed block leaves its slot empty, and no other block changes. -/
theorem block?_killUnreachable (g : Graph) (b : BlockId) :
    g.killUnreachable.2.block? b = (g.block? b).filter fun block => block.flags.reachable := by
  rw [killUnreachable]
  split
  case isTrue h =>
    cases hb : g.block? b with
    | none => rfl
    | some block =>
      simp [Option.filter, unreachableIds_eq_nil_iff.1 (List.isEmpty_iff.1 h) b block hb]
  case isFalse h =>
    simp only [invalidate, block?_eq_getElem?, Array.getElem?_map]
    cases g.blocks[b]? <;> rfl

end Graph

end Unroller
