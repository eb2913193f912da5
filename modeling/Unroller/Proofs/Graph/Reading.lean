import Mathlib.Tactic
import Unroller.Graph.Flow
import Unroller.Proofs.Arrays

/-!
# Reading a graph after an edit

What blocks, nodes and successors there are after each of the small edits that all transformations
are made of.

* `mem_liveBlocks`: the live blocks are the slots that hold one.
* `mem_successors_iff`: the successors of a block are what its slots name.
* `successors_congr`: they depend on the last node and the records only.
-/

namespace Unroller.Graph

variable {g h : Graph} {b c : BlockId} {n m : NodeId} {block : Block} {node : Node}

/-! ## Blocks -/

theorem block?_eq_getElem? (g : Graph) (b : BlockId) : g.block? b = (g.blocks[b]?).join := by
  rw [block?, Array.getD_eq_getD_getElem?]
  cases g.blocks[b]? <;> rfl

theorem lt_size_of_block? (h : g.block? b = some block) : b < g.blocks.size := by
  by_contra hb
  simp [block?, Array.getD_eq_getD_getElem?, hb] at h

theorem isLive_of_block? (h : g.block? b = some block) : g.isLive b = true := by
  simp [isLive, h]

theorem isLive_iff : g.isLive b = true ↔ ∃ block, g.block? b = some block := by
  rw [isLive, Option.isSome_iff_exists]

@[simp] theorem block?_modifyBlock (g : Graph) (b c : BlockId) (change : Block → Block) :
    (g.modifyBlock b change).block? c = if b = c then (g.block? c).map change else g.block? c := by
  simp only [block?, modifyBlock, getD_modify]
  by_cases h : b = c
  · subst h
    by_cases hb : b < g.blocks.size
    · simp [hb]
    · simp [hb, Array.getD_eq_getD_getElem?]
  · simp [h]

@[simp] theorem size_blocks_modifyBlock (g : Graph) (b : BlockId) (change : Block → Block) :
    (g.modifyBlock b change).blocks.size = g.blocks.size := by
  simp [modifyBlock]

theorem block?_push (g : Graph) (slot : Option Block) (c : BlockId) :
    ({ g with blocks := g.blocks.push slot } : Graph).block? c =
      if c = g.blocks.size then slot else g.block? c := by
  simp only [block?, Array.getD_eq_getD_getElem?, Array.getElem?_push]
  split <;> rfl

theorem nodesOf_eq (hb : g.block? b = some block) : g.nodesOf b = block.nodes := by
  simp [nodesOf, hb]

theorem mem_nodesOf : n ∈ g.nodesOf b ↔ ∃ block, g.block? b = some block ∧ n ∈ block.nodes := by
  rw [nodesOf]
  split <;> simp_all

/-- Every phi and every node that a block lists exists. -/
def NoneMissing (g : Graph) : Prop :=
  ∀ b block, g.block? b = some block → ∀ n ∈ block.phis ++ block.nodes, n < g.nodes.size

theorem mem_liveBlocks : (b, block) ∈ g.liveBlocks ↔ g.block? b = some block := by
  simp only [liveBlocks, List.mem_filterMap, Option.map_eq_some_iff, Prod.mk.injEq, Prod.exists,
    List.mem_zipIdx_iff_getElem?, block?_eq_getElem?, Option.join_eq_some_iff]
  constructor
  · rintro ⟨slot, i, hi, B, rfl, rfl, rfl⟩
    simpa using hi
  · intro hb
    exact ⟨some block, b, by simpa using hb, block, rfl, rfl, rfl⟩

/-- The live blocks are listed in the order of their slots, -/
theorem pairwise_lt_liveBlocks (g : Graph) : g.liveBlocks.Pairwise fun e f => e.1 < f.1 := by
  refine List.Pairwise.filterMap _ (R := fun e f => e.2 < f.2) ?_ ?_
  · rintro ⟨s, i⟩ ⟨t, j⟩ hlt e he f hf
    simp only [Option.map_eq_some_iff] at he hf
    obtain ⟨_, _, rfl⟩ := he
    obtain ⟨_, _, rfl⟩ := hf
    exact hlt
  · have hsorted : (g.blocks.toList.zipIdx.map Prod.snd).Pairwise (· < ·) := by
      rw [List.zipIdx_map_snd]
      exact List.pairwise_lt_range'
    exact List.pairwise_map.1 hsorted

/-- none of them twice. -/
theorem pairwise_liveBlocks (g : Graph) : g.liveBlocks.Pairwise fun e f => e.1 ≠ f.1 :=
  (pairwise_lt_liveBlocks g).imp Nat.ne_of_lt

/-- Every block is in the slot of its index. -/
def Numbered (g : Graph) : Prop := ∀ b block, g.block? b = some block → block.index = b

/-- Then the indices of some blocks are the slots they are in. -/
theorem Numbered.map_index (hg : g.Numbered) (p : BlockId × Block → Bool) :
    ((g.liveBlocks.filter p).map fun e => e.2.index) =
      (g.liveBlocks.filter p).map fun e => e.1 := by
  refine List.map_congr_left fun e he => ?_
  exact hg e.1 e.2 (mem_liveBlocks.1 (List.mem_filter.1 he).1)

/-! ## Nodes -/

@[simp] theorem node?_modifyNode (g : Graph) (n m : NodeId) (change : Node → Node) :
    (g.modifyNode n change).node? m = if n = m then (g.node? m).map change else g.node? m := by
  simp only [node?, modifyNode, Array.getElem?_modify]

@[simp] theorem node?_addNode (g : Graph) (n : Node) (m : NodeId) :
    (g.addNode n).2.node? m = if m = g.nodes.size then some n else g.node? m := by
  simp only [node?, addNode, Array.getElem?_push]

@[simp] theorem node?_modifyBlock (g : Graph) (b : BlockId) (change : Block → Block) (m : NodeId) :
    (g.modifyBlock b change).node? m = g.node? m := rfl

@[simp] theorem block?_modifyNode (g : Graph) (n : NodeId) (change : Node → Node) (b : BlockId) :
    (g.modifyNode n change).block? b = g.block? b := rfl

@[simp] theorem block?_addNode (g : Graph) (n : Node) (b : BlockId) :
    (g.addNode n).2.block? b = g.block? b := rfl

theorem lt_size_of_node? (h : g.node? n = some node) : n < g.nodes.size :=
  (Array.getElem?_eq_some_iff.1 h).1

theorem node?_eq_none_iff : g.node? n = none ↔ g.nodes.size ≤ n :=
  Array.getElem?_eq_none_iff

theorem exists_node? (h : n < g.nodes.size) : ∃ node, g.node? n = some node :=
  ⟨g.nodes[n], Array.getElem?_eq_getElem h⟩

/-! ## Successors -/

theorem terminalNode?_eq_some_iff :
    g.terminalNode? b = some (n, node) ↔
      ∃ block, g.block? b = some block ∧ block.nodes.getLast? = some n ∧ g.node? n = some node ∧
        node.kind.isTerminal = true := by
  simp only [terminalNode?, Option.bind_eq_bind, Option.bind_eq_some_iff,
    Option.ite_none_right_eq_some, Option.some.injEq, Prod.mk.injEq]
  constructor
  · rintro ⟨B, hB, k, hk, m, hm, hterm, rfl, rfl⟩
    exact ⟨B, hB, hk, hm, hterm⟩
  · rintro ⟨B, hB, hk, hm, hterm⟩
    exact ⟨B, hB, n, hk, node, hm, hterm, rfl, rfl⟩

theorem isLive_of_terminalNode? {e : NodeId × Node} (h : g.terminalNode? b = some e) :
    g.isLive b = true := by
  obtain ⟨n, node⟩ := e
  obtain ⟨block, hb, _⟩ := terminalNode?_eq_some_iff.1 h
  exact isLive_of_block? hb

theorem mem_successors_iff {t : BlockId} :
    t ∈ g.successors b ↔ ∃ slot < g.successorCount b, g.successor? b slot = some t := by
  rw [successors, successorCount]
  simp only [successor?]
  cases g.terminalNode? b with
  | none => simp
  | some e => simp [List.mem_filterMap]

theorem isLive_of_mem_successors {t : BlockId} (h : t ∈ g.successors b) : g.isLive b = true := by
  cases ht : g.terminalNode? b with
  | none => simp [successors, ht] at h
  | some e => exact isLive_of_terminalNode? ht

/-- The operands of a node only depend on its children and the variadic operands. -/
theorem edgesOf_congr (ha : h.varArgs = g.varArgs) (c : Children) : h.edgesOf c = g.edgesOf c := by
  cases c <;> simp [edgesOf, varArgRange, ha]

/-- The targets of a payload only depend on the records. -/
theorem slotTarget?_congr (hb : h.branches = g.branches) (hs : h.switches = g.switches)
    (p : Payload) (slot : Nat) : h.slotTarget? p slot = g.slotTarget? p slot := by
  cases p <;> simp [slotTarget?, hb, hs]

theorem slotCount_congr (hs : h.switches = g.switches) (p : Payload) :
    h.slotCount p = g.slotCount p := by
  cases p <;> simp [slotCount, hs]

theorem successor?_congr (hb : h.branches = g.branches) (hs : h.switches = g.switches)
    (ht : (h.terminalNode? c).map (fun e => e.2.payload) =
      (g.terminalNode? b).map fun e => e.2.payload) (slot : Nat) :
    h.successor? c slot = g.successor? b slot := by
  rw [successor?, successor?]
  cases hc : h.terminalNode? c <;> cases hb' : g.terminalNode? b <;> simp [hc, hb'] at ht ⊢
  rw [ht, slotTarget?_congr hb hs]

theorem successorCount_congr (hs : h.switches = g.switches)
    (ht : (h.terminalNode? c).map (fun e => e.2.payload) =
      (g.terminalNode? b).map fun e => e.2.payload) :
    h.successorCount c = g.successorCount b := by
  rw [successorCount, successorCount]
  cases hc : h.terminalNode? c <;> cases hb' : g.terminalNode? b <;> simp [hc, hb'] at ht ⊢
  rw [ht, slotCount_congr hs]

theorem successors_congr (hb : h.branches = g.branches) (hs : h.switches = g.switches)
    (ht : (h.terminalNode? c).map (fun e => e.2.payload) =
      (g.terminalNode? b).map fun e => e.2.payload) :
    h.successors c = g.successors b := by
  rw [successors, successors]
  cases hc : h.terminalNode? c <;> cases hb' : g.terminalNode? b <;> simp [hc, hb'] at ht ⊢
  rw [ht, slotCount_congr hs]
  exact List.filterMap_congr fun slot _ => slotTarget?_congr hb hs _ slot

end Unroller.Graph
