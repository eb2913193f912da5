import Mathlib.Tactic
import Unroller.Proofs.Cloning.Calls
import Unroller.Proofs.Cloning.Sustaining

/-!
# Where copies of blocks are put

Whatever the graph, copying never empties a slot: blocks are added at the end, and each block that
is added is a copy that the session remembers.

* `Graph.slots`: the index of the block in each slot; edits of nodes, records and blocks leave them
  alone.
* `Settled`: a part of the work that adds no block; `settled_fill`: filling a copy is one.
* `Allots`: the blocks added are the copies remembered, each in the slot next to the one before.
* `allots_of_copies`: so it is when a copying has succeeded.
-/

namespace Unroller

namespace Graph

variable {g h : Graph} {b : BlockId}

/-- The index of the block in each slot. -/
def slots (g : Graph) : Array (Option BlockId) := g.blocks.map fun slot => slot.map Block.index

/-- The slots of `n` added blocks, the first of which is in the slot `start`. -/
def addedSlots (start n : Nat) : Array (Option BlockId) := ((List.range' start n).map some).toArray

@[simp] theorem size_addedSlots (start n : Nat) : (addedSlots start n).size = n := by
  simp [addedSlots]

theorem addedSlots_append (start m n : Nat) :
    addedSlots start m ++ addedSlots (start + m) n = addedSlots start (m + n) := by
  simp only [addedSlots, List.append_toArray, ← List.map_append, List.range'_append_1]

theorem size_slots (g : Graph) : g.slots.size = g.blocks.size := by simp [slots]

theorem index_eq_slots (g : Graph) (b : BlockId) :
    (g.block? b).map Block.index = g.slots.getD b none := by
  rw [block?_eq_getElem?, Array.getD_eq_getD_getElem?, slots, Array.getElem?_map]
  cases g.blocks[b]? <;> rfl

theorem size_eq_of_slots (hs : h.slots = g.slots) : h.blocks.size = g.blocks.size := by
  rw [← size_slots, hs, size_slots]

theorem slots_modifyBlock (g : Graph) (b : BlockId) {change : Block → Block}
    (hindex : ∀ block, (change block).index = block.index) :
    (g.modifyBlock b change).slots = g.slots := by
  refine Array.ext (by simp [slots]) fun i hi hi' => ?_
  simp only [slots, modifyBlock, Array.getElem_map, Array.getElem_modify]
  split
  · rw [Option.map_map]
    exact congrArg (Option.map · _) (funext hindex)
  · rfl

theorem slots_withNode (g : Graph) (target : BlockId) {list : NodeId → Block → Block} (node : Node)
    (hindex : ∀ n block, (list n block).index = block.index) :
    (Cloning.withNode g target list node).slots = g.slots := by
  unfold Cloning.withNode
  exact slots_modifyBlock _ _ (hindex _)

theorem slots_setSuccessor {slot : Nat} {target : BlockId}
    (hok : g.setSuccessor b slot target = .ok h) : h.slots = g.slots := by
  unfold setSuccessor at hok
  split at hok
  · cases hok
  · split at hok
    · cases hok
    · split at hok <;> cases hok <;> rfl

theorem slots_convertToJump {target : BlockId} (hok : g.convertToJump b target = .ok h) :
    h.slots = g.slots := by
  unfold convertToJump at hok
  split at hok
  · cases hok
  · split at hok
    · cases hok
      rfl
    · simp only at hok
      cases hok
      refine Eq.trans (slots_modifyBlock _ _ ?_) ?_
      · exact fun _ => rfl
      · split <;> rfl

theorem slots_insertBlock (g : Graph) (executionCount : Float) :
    (g.insertBlock executionCount).2.slots = g.slots ++ addedSlots g.blocks.size 1 := by
  simp [slots, insertBlock, addBlock, addedSlots, Block.ofCount]

end Graph

open Unroller.Graph

namespace Cloning

variable {α β : Type} {s t u : Session} {hook : Hook} {b c : BlockId} {block : Block}

/-! ## Work that adds no block -/

/-- The blocks there are, and the copies of blocks that were made. -/
def outline (s : Session) : Array (Option BlockId) × List (BlockId × BlockId) :=
  (s.graph.slots, s.blockCopies)

/-- A part of the work that neither adds a block nor remembers a copy of one. -/
def Settled (x : Cloning α) : Prop := ∀ s a t, x s = .ok a t → outline t = outline s

namespace Settled

theorem pure (a : α) : Settled (pure a) := by
  intro s a t h
  cases h
  rfl

theorem throw (e : Error) : Settled (throw e : Cloning α) := by
  intro s a t h
  cases h

theorem get : Settled (get : Cloning Session) := by
  intro s a t h
  cases h
  rfl

theorem modify {change : Session → Session} (h : ∀ s, outline (change s) = outline s) :
    Settled (modify change : Cloning PUnit) := by
  intro s a t hok
  cases hok
  exact h s

theorem bind {x : Cloning α} {f : α → Cloning β} (hx : Settled x) (hf : ∀ a, Settled (f a)) :
    Settled (x >>= f) := by
  intro s b u h
  obtain ⟨a, t, ha, hb⟩ := bind_eq_ok h
  rw [hf a t b u hb, hx s a t ha]

theorem forM {as : List α} {f : α → Cloning PUnit} (hf : ∀ a, Settled (f a)) :
    Settled (as.forM f) := by
  induction as with
  | nil => exact pure _
  | cons a as ih => exact (hf a).bind fun _ => ih

theorem foldlM {as : List α} {f : β → α → Cloning β} (hf : ∀ acc a, Settled (f acc a)) (acc : β) :
    Settled (as.foldlM f acc) := by
  induction as generalizing acc with
  | nil => exact pure _
  | cons a as ih => exact (hf acc a).bind fun acc' => ih acc'

theorem mapM {as : List α} {f : α → Cloning β} (hf : ∀ a, Settled (f a)) : Settled (as.mapM f) := by
  induction as with
  | nil => exact pure _
  | cons a as ih =>
    rw [List.mapM_cons]
    exact (hf a).bind fun _ => ih.bind fun _ => pure _

theorem onGraph {change : Graph → α × Graph} (h : ∀ g, (change g).2.slots = g.slots) :
    Settled (onGraph change) := by
  intro s a t hok
  cases hok
  simp only [outline, h]

theorem tryGraph {ε : Type} {wrap : ε → Error} {change : Graph → Except ε (α × Graph)}
    (h : ∀ g a k, change g = .ok (a, k) → k.slots = g.slots) : Settled (tryGraph wrap change) := by
  intro s a t hok
  unfold Cloning.tryGraph at hok
  split at hok
  · rename_i result k hk
    cases hok
    simp only [outline, h s.graph _ k hk]
  · cases hok

end Settled

/-! ## Filling a copy -/

variable {copy : NodeId → Cloning NodeId}

theorem settled_edge (hcopy : ∀ n, Settled (copy n)) (e : Edge) : Settled (edge copy e) := by
  unfold edge
  split
  · exact (hcopy _).bind fun _ => .pure _
  · exact .pure _

theorem settled_children (hcopy : ∀ n, Settled (copy n)) (c : Children) :
    Settled (children copy c) := by
  unfold children
  split
  · refine (settled_edge hcopy _).bind fun _ => (settled_edge hcopy _).bind fun _ => ?_
    exact (settled_edge hcopy _).bind fun _ => .pure _
  · refine Settled.get.bind fun s => (Settled.mapM (settled_edge hcopy)).bind fun copies => ?_
    refine Settled.get.bind fun t => Settled.bind (.forM fun e => ?_) fun _ => .pure _
    have hadd : Settled (onGraph (·.addVarArg e)) := .onGraph fun g => rfl
    exact hadd.bind fun _ => .pure _

theorem settled_payload (n : NodeId) (node : Node) : Settled (payload n node) := by
  unfold payload
  split
  · rename_i shape _
    intro s a t hok
    rcases record_cases n shape node.payload s with ⟨r, _, hrun⟩ | ⟨e, hrun⟩
    · rw [hrun] at hok
      cases hok
      simp only [outline, onto, slots, (moreRecords_addRecord s.graph r).blocks_eq]
    · rw [hrun] at hok
      cases hok
  · exact .pure _

theorem settled_nodeFrom (target : BlockId) (fuel : Nat) (n : NodeId) :
    Settled (nodeFrom target fuel n) := by
  induction fuel generalizing n with
  | zero => exact .throw _
  | succ fuel ih =>
    have hremember : ∀ copy, Settled
        (modify fun s => { s with nodeCopies := (n, copy) :: s.nodeCopies } : Cloning PUnit) :=
      fun copy => .modify fun s => rfl
    have hrest : ∀ node : Node, Settled (do
        let children ← children (nodeFrom target fuel) node.children
        let payload ← payload n node
        let copy ← tryGraph .defect
          (·.appendNode target { node with children := children, payload := payload })
        modify fun s => { s with nodeCopies := (n, copy) :: s.nodeCopies }
        return copy) := by
      intro node
      refine (settled_children ih _).bind fun c => (settled_payload n node).bind fun p => ?_
      refine (Settled.tryGraph fun g a k hok => ?_).bind fun copy =>
        (hremember copy).bind fun _ => .pure _
      cases appendNode_eq_ok hok
      exact slots_withNode _ _ _ fun _ _ => rfl
    unfold nodeFrom
    refine Settled.get.bind fun s => ?_
    split
    · exact .pure _
    · refine Settled.get.bind fun s => ?_
      split
      · exact .throw _
      · split
        · exact .throw _
        · exact .throw _
        · exact hrest _
        · exact hrest _

theorem settled_phi (target : BlockId) (n : NodeId) : Settled (phi target n) := by
  unfold phi
  refine Settled.get.bind fun s => ?_
  split
  · exact .throw _
  · refine (Settled.tryGraph fun g a k hok => ?_).bind fun copy => .modify fun s => rfl
    cases appendPhi_eq_ok hok
    exact slots_withNode _ _ _ fun _ _ => rfl

theorem settled_snapshot (source : BlockId) (operands : Snapshot) :
    Settled (snapshot source operands) := by
  unfold snapshot
  refine .foldlM (fun acc e => Settled.get.bind fun s => ?_) _
  split
  · exact .pure _
  · exact .throw _

/-- **Filling a copy** adds no block. -/
theorem settled_fill (source copy : BlockId) (block : Block) :
    Settled (fill source copy block) := by
  unfold fill
  refine Settled.bind (.forM (settled_phi copy)) fun _ => ?_
  refine Settled.bind (.forM fun n => ?_) fun _ => ?_
  · exact (Settled.get.bind fun s => settled_nodeFrom copy _ n).bind fun _ => .pure _
  · refine (settled_snapshot source _).bind fun _ => (settled_snapshot source _).bind fun _ => ?_
    exact .onGraph fun g => slots_modifyBlock _ _ fun _ => rfl

/-! ## Copies and their slots -/

/-- The copies `made` were added since, one after the other, each for a block that had none. -/
structure Allots (s t : Session) (made : List (BlockId × BlockId)) : Prop where
  blockCopies : t.blockCopies = made ++ s.blockCopies
  slots : t.graph.slots = s.graph.slots ++ addedSlots s.graph.blocks.size made.length
  copies : made.map Prod.snd = (List.range' s.graph.blocks.size made.length).reverse
  sources : (s.blockCopies.map Prod.fst).Nodup → (t.blockCopies.map Prod.fst).Nodup

theorem Allots.size {made : List (BlockId × BlockId)} (h : Allots s t made) :
    t.graph.blocks.size = s.graph.blocks.size + made.length := by
  rw [← size_slots, h.slots]
  simp [size_slots]

theorem allots_of_outline (h : outline t = outline s) : Allots s t [] := by
  obtain ⟨hslots, hcopies⟩ := Prod.mk.inj h
  exact ⟨hcopies, by simp [hslots, addedSlots], rfl, by simp [hcopies]⟩

theorem Allots.trans {made more : List (BlockId × BlockId)} (h₁ : Allots s t made)
    (h₂ : Allots t u more) : Allots s u (more ++ made) := by
  refine ⟨by rw [h₂.blockCopies, h₁.blockCopies, List.append_assoc], ?_, ?_,
    fun h => h₂.sources (h₁.sources h)⟩
  · rw [h₂.slots, h₁.slots, h₁.size, Array.append_assoc, addedSlots_append, List.length_append,
      Nat.add_comm]
  · rw [List.map_append, h₂.copies, h₁.copies, h₁.size, ← List.reverse_append,
      List.range'_append_1, List.length_append, Nat.add_comm made.length]

/-- **One more block** is added at the end. -/
theorem allots_freshBlock (hnone : s.blockCopies.lookup b = none)
    (hok : freshBlock b block s = .ok c t) : Allots s t [(b, c)] := by
  cases hok
  refine ⟨rfl, ?_, rfl, fun hnodup => ?_⟩
  · show ((s.graph.insertBlock block.executionCount).2.modifyBlock s.graph.blocks.size _).slots = _
    refine Eq.trans (slots_modifyBlock _ _ ?_) (slots_insertBlock _ _)
    exact fun _ => rfl
  · refine List.nodup_cons.2 ⟨fun hmem => ?_, hnodup⟩
    obtain ⟨e, he, heq⟩ := List.mem_map.1 hmem
    have hfree := List.lookup_eq_none_iff.1 hnone e he
    simp [heq] at hfree

/-- **A copying that succeeds** remembers every block it adds. -/
theorem allots_of_copies {job : Job} {calls : List Call}
    (hhook : ∀ source copy g handled h, hook source copy g = .ok handled h → h.slots = g.slots)
    (h : Copies hook job s calls t) : ∃ made, Allots s t made := by
  induction h with
  | known => exact ⟨[], allots_of_outline rfl⟩
  | copied huncopied _ hadded hfilled hanswer _ ih =>
    obtain ⟨made, hmade⟩ := ih
    obtain ⟨k, hk, rfl⟩ := offer_eq_ok hanswer
    have hoffer := hhook _ _ _ _ _ hk
    have hfill := allots_of_outline (settled_fill _ _ _ _ _ _ hfilled)
    exact ⟨_, (((allots_freshBlock huncopied hadded).trans hfill).trans
      (allots_of_outline (by simp only [outline, hoffer]))).trans hmade⟩
  | done => exact ⟨[], allots_of_outline rfl⟩
  | slot _ _ hset _ ih₁ ih₂ =>
    obtain ⟨made, hmade⟩ := ih₁
    obtain ⟨more, hmore⟩ := ih₂
    exact ⟨_, (hmade.trans (allots_of_outline (by
      simp only [outline, onto, slots_setSuccessor hset]))).trans hmore⟩

theorem allots_of_block {reach : Nat}
    (hhook : ∀ source copy g handled h, hook source copy g = .ok handled h → h.slots = g.slots)
    (hok : Cloning.block hook b reach s = .ok c t) : ∃ made, Allots s t made := by
  obtain ⟨calls, hcalls⟩ := copies_of_blockFrom hok
  exact allots_of_copies hhook hcalls

end Cloning

end Unroller
