import Mathlib.Tactic
import Unroller.Proofs.Graph.Cleanup

/-!
# Reachability and pruning are exact

What is said here holds of every graph, with empty slots, edges to them or out of range, and no
entry.

* `Reachable`: the entry is live and leads to the block; `mem_searched`: these are the blocks that a
  recomputation of reachability goes through.
* `Recomputed`: reachability flags and predecessor lists are right; `Pruned`: the unreachable blocks
  are gone.  They are listed by their indices, in the order of the slots they were in; these are the
  slots themselves in a graph whose blocks are in their places, as all graphs that operations lead
  to.
* `resetReachability_eq_self`: a graph that is up to date is not changed by a recomputation.
* `pruning_exact`: recomputing reachability and killing what is unreachable do this, and doing it
  again changes nothing.
-/

namespace Unroller.Graph

variable {g h : Graph} {b : BlockId} {block : Block}

/-! ## Reachable blocks -/

/-- The entry is live and some path of successors leads from it to the block. -/
def Reachable (g : Graph) (b : BlockId) : Prop := g.isLive entry = true ∧ g.flow.Reaches entry b

theorem mem_searched : b ∈ g.searched ↔ g.Reachable b := by
  rw [searched, Reachable]
  split
  · rename_i hentry
    simp [hentry, Digraph.mem_pushOrder]
  · rename_i hentry
    simp [hentry]

theorem nodup_searched (g : Graph) : g.searched.Nodup := by
  rw [searched]
  split
  · exact Digraph.nodup_pushOrder entry
  · exact List.nodup_nil

/-- A successor of a reachable block is reachable, if it is a slot of the graph. -/
theorem Reachable.step {c : BlockId} (hb : g.Reachable b) (hc : c ∈ g.successors b)
    (hlt : c < g.blocks.size) : g.Reachable c :=
  ⟨hb.1, hb.2.step ⟨hb.2.right_lt, hlt, hc⟩⟩

/-- Graphs with the same entry and the same edges between reachable blocks are searched alike. -/
theorem searched_congr (hlive : h.isLive entry = g.isLive entry)
    (hsize : h.blocks.size = g.blocks.size)
    (hsame : ∀ b, g.Reachable b → h.successors b = g.successors b) : h.searched = g.searched := by
  rw [searched, searched, hlive]
  split
  · rename_i hentry
    exact Digraph.pushOrder_congr hsize fun b hb => hsame b ⟨hentry, hb⟩
  · rfl

/-! ## Recomputing reachability -/

/-- Flags and predecessor lists that are right already may be written again. -/
theorem withReach_eq_self {r : BlockId → Bool} {p : BlockId → List BlockId}
    (hreach : ∀ b block, g.block? b = some block → reachOf block = (r b, p b)) :
    g.withReach r p = g := by
  have hblocks : (g.withReach r p).blocks = g.blocks := by
    refine Array.ext_getElem? fun i => ?_
    simp only [withReach, Array.getElem?_mapIdx]
    rcases hi : g.blocks[i]? with _ | _ | block
    · rfl
    · rfl
    · have hb : g.block? i = some block := by rw [block?_eq_getElem?, hi]; rfl
      obtain ⟨hflag, hpreds⟩ := Prod.mk.inj (hreach i block hb)
      simp [Block.withReach, ← hflag, ← hpreds]
  calc g.withReach r p = { g with blocks := (g.withReach r p).blocks } := rfl
    _ = g := by rw [hblocks]

/-- **A recomputation changes nothing** in a graph whose flags and predecessor lists were computed
from a graph with the same edges. -/
theorem resetReachability_eq_self (hlive : h.isLive entry = g.isLive entry)
    (hsize : h.blocks.size = g.blocks.size)
    (hsame : ∀ b, g.Reachable b → h.successors b = g.successors b)
    (hreach : ∀ b block, h.block? b = some block →
      (g.resetReachability.block? b).map reachOf = some (reachOf block)) :
    h.resetReachability = h := by
  rw [resetReachability_eq_withReach, searched_congr hlive hsize hsame]
  refine withReach_eq_self fun b block hb => ?_
  have hold := hreach b block hb
  rw [resetReachability_eq_withReach, block?_withReach, Option.map_map,
    Option.map_eq_some_iff] at hold
  obtain ⟨old, _, hold⟩ := hold
  rw [← hold]
  refine Prod.ext rfl (List.filter_congr fun q hq => ?_)
  rw [hsame q (mem_searched.1 hq)]

/-- The graph `h` is `g` with reachability recomputed: the flag of a live block tells whether it is
reachable, its predecessors are the reachable blocks that lead to it, each once, and nothing else
has changed. -/
structure Recomputed (g h : Graph) : Prop where
  reachable_iff : ∀ b block, h.block? b = some block →
    (block.flags.reachable = true ↔ g.Reachable b)
  mem_preds_iff : ∀ b block, h.block? b = some block →
    ∀ q, q ∈ block.preds ↔ g.Reachable q ∧ b ∈ g.successors q
  nodup_preds : ∀ b block, h.block? b = some block → block.preds.Nodup
  rest : h.clearReachability = g.clearReachability

theorem recomputed_resetReachability (g : Graph) : Recomputed g g.resetReachability := by
  rw [resetReachability_eq_withReach]
  refine ⟨?_, ?_, ?_, ?_⟩
  case refine_4 =>
    simp only [clearReachability, withReach, Graph.mk.injEq, true_and, and_true]
    refine Array.ext_getElem? fun i => ?_
    simp only [Array.getElem?_map, Array.getElem?_mapIdx]
    rcases g.blocks[i]? with _ | _ | block <;> rfl
  all_goals
    intro b block hb
    rw [block?_withReach, Option.map_eq_some_iff] at hb
    obtain ⟨old, _, rfl⟩ := hb
  · simp [Block.withReach, mem_searched]
  · intro q
    simp [Block.withReach, mem_searched, List.mem_filter]
  · exact (nodup_searched g).filter _

/-! ## Killing what is unreachable -/

/-- The graph `k` is `h` without the blocks that are not reachable in `g`.  The slots they were in
are empty, and nothing else has changed, but for the kept analyses, which are forgotten if a block
was killed.  The indices of the killed blocks are listed in the order of these slots, and are these
slots when the blocks of `g` are in the slots of their indices. -/
structure Pruned (g h k : Graph) (slots killed : List BlockId) : Prop where
  mem_slots : ∀ b, b ∈ slots ↔ g.isLive b = true ∧ ¬ g.Reachable b
  ascending : slots.Pairwise (· < ·)
  killed_eq : killed.map some = slots.map fun b => (h.block? b).map Block.index
  numbered : g.Numbered → killed = slots
  size : k.blocks.size = h.blocks.size
  block : ∀ b, k.block? b = if b ∈ slots then none else h.block? b
  rest : killed = [] ∧ k = h ∨ killed ≠ [] ∧ k = { h with blocks := k.blocks }.invalidate

theorem Recomputed.isLive_eq (hr : Recomputed g h) (b : BlockId) : h.isLive b = g.isLive b := by
  have hclear := congrArg (fun k : Graph => k.isLive b) hr.rest
  simpa only [clearReachability_eq, isLive_withReach] using hclear

theorem Recomputed.size_eq (hr : Recomputed g h) : h.blocks.size = g.blocks.size := by
  have hclear := congrArg (fun k : Graph => k.blocks.size) hr.rest
  simpa only [clearReachability_eq, size_blocks_withReach] using hclear

theorem Recomputed.successors_eq (hr : Recomputed g h) (b : BlockId) :
    h.successors b = g.successors b := by
  have hclear := congrArg (fun k : Graph => k.successors b) hr.rest
  simpa only [clearReachability_eq, successors_withReach] using hclear

theorem Recomputed.numbered (hr : Recomputed g h) (hg : g.Numbered) : h.Numbered := by
  intro b block hb
  have hclear := congrArg (fun k : Graph => (k.block? b).map Block.index) hr.rest
  simp only [clearReachability_eq, block?_withReach, Option.map_map] at hclear
  rw [hb, Option.map_some, eq_comm, Option.map_eq_some_iff] at hclear
  obtain ⟨old, hold, hindex⟩ := hclear
  exact hindex.symm.trans (hg b old hold)

/-- **Killing** what is marked unreachable. -/
theorem pruned_killUnreachable (hr : Recomputed g h) :
    Pruned g h h.killUnreachable.2 h.unreachableSlots h.killUnreachable.1 := by
  have hmem : ∀ b, b ∈ h.unreachableSlots ↔ g.isLive b = true ∧ ¬ g.Reachable b := by
    intro b
    rw [mem_unreachableSlots, ← hr.isLive_eq, isLive_iff, ← exists_and_right]
    refine exists_congr fun block => and_congr_right fun hb => ?_
    rw [← hr.reachable_iff b block hb, Bool.not_eq_true]
  refine ⟨hmem, pairwise_lt_unreachableSlots h, ?_, fun hg => ?_, (killed_killUnreachable h).size,
    fun b => ?_, ?_⟩
  · rw [killUnreachable_fst, map_unreachableIds]
  · rw [killUnreachable_fst, (hr.numbered hg).unreachableIds_eq]
  · rw [block?_killUnreachable]
    cases hb : h.block? b with
    | none => simp
    | some block =>
      have hlive : g.isLive b = true := hr.isLive_eq b ▸ isLive_of_block? hb
      have hflag := hr.reachable_iff b block hb
      by_cases hreach : g.Reachable b
      · rw [if_neg fun hk => ((hmem b).1 hk).2 hreach]
        simp [Option.filter, hflag.2 hreach]
      · rw [if_pos ((hmem b).2 ⟨hlive, hreach⟩)]
        simp [Option.filter, mt hflag.1 hreach]
  · rw [killUnreachable]
    split
    · exact .inl ⟨rfl, rfl⟩
    · rename_i hsome
      exact .inr ⟨fun hnil => hsome (List.isEmpty_iff.2 hnil), rfl⟩

namespace Pruned

variable {k : Graph} {slots killed : List BlockId}

theorem node?_eq (hk : Pruned g h k slots killed) (n : NodeId) : k.node? n = h.node? n := by
  rcases hk.rest with ⟨_, heq⟩ | ⟨_, heq⟩
  · rw [heq]
  · rw [heq]
    rfl

theorem block?_of_reachable (hk : Pruned g h k slots killed) (hb : g.Reachable b) :
    k.block? b = h.block? b := by
  rw [hk.block, if_neg fun hmem => ((hk.mem_slots b).1 hmem).2 hb]

theorem block?_of_some (hk : Pruned g h k slots killed) (hb : k.block? b = some block) :
    h.block? b = some block := by
  rw [hk.block] at hb
  split at hb
  · cases hb
  · exact hb

/-- What is left is reachable. -/
theorem reachable_of_isLive (hk : Pruned g h k slots killed) (hr : Recomputed g h)
    (hb : k.isLive b = true) : g.Reachable b := by
  obtain ⟨block, hblock⟩ := isLive_iff.1 hb
  by_contra hnot
  have hlive := hr.isLive_eq b ▸ isLive_of_block? (hk.block?_of_some hblock)
  rw [hk.block, if_pos ((hk.mem_slots b).2 ⟨hlive, hnot⟩)] at hblock
  cases hblock

theorem isLive_of_reachable (hk : Pruned g h k slots killed) (hr : Recomputed g h)
    (hb : g.Reachable b) : k.isLive b = g.isLive b := by
  rw [← hr.isLive_eq, isLive, isLive, hk.block?_of_reachable hb]

theorem successors_eq (hk : Pruned g h k slots killed) (hr : Recomputed g h) (hb : g.Reachable b) :
    k.successors b = g.successors b := by
  rw [← hr.successors_eq]
  have hterminal : k.terminalNode? b = h.terminalNode? b := by
    rw [terminalNode?, terminalNode?, hk.block?_of_reachable hb]
    simp only [hk.node?_eq]
  rcases hk.rest with ⟨_, heq⟩ | ⟨_, heq⟩
  · rw [heq]
  · exact successors_congr (by rw [heq]; rfl) (by rw [heq]; rfl) (by rw [hterminal])

/-- The entry is not killed: it is reachable if it is live. -/
theorem isLive_entry (hk : Pruned g h k slots killed) (hr : Recomputed g h) :
    k.isLive entry = g.isLive entry := by
  by_cases hentry : g.isLive entry = true
  · obtain ⟨block, hblock⟩ := isLive_iff.1 hentry
    exact hk.isLive_of_reachable hr ⟨hentry, .refl (lt_size_of_block? hblock)⟩
  · rw [Bool.not_eq_true] at hentry
    rw [hentry]
    by_contra hleft
    have hleft := (hk.reachable_of_isLive hr (Bool.of_not_eq_false hleft)).1
    rw [hentry] at hleft
    cases hleft

/-- Nothing is left to kill. -/
theorem unreachableIds_eq_nil (hk : Pruned g h k slots killed) (hr : Recomputed g h) :
    k.unreachableIds = [] := by
  refine List.eq_nil_iff_forall_not_mem.2 fun b hb => ?_
  obtain ⟨slot, block, hblock, hflag, _⟩ := mem_unreachableIds.1 hb
  have hreach := hk.reachable_of_isLive hr (isLive_of_block? hblock)
  rw [(hr.reachable_iff slot block (hk.block?_of_some hblock)).2 hreach] at hflag
  cases hflag

end Pruned

end Unroller.Graph
