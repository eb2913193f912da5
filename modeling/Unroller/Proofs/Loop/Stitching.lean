import Mathlib.Tactic
import Unroller.Phase
import Unroller.Proofs.Graph.Cleanup
import Unroller.Proofs.Loop.Cloneable

/-!
# Bodies in a row

Unrolling makes copies of a loop body, each of which leads to the one made before it.

* `TailLeads`, `Stitched`: how the copy of a tail ends; `stitch_spec`: the hook sees to that.
* `Generation`: one copy of the body, given by what is the copy of what.
* `Chain`: a block that begins a row of so many copies.
* `copyBodies_ok`: making copies succeeds and leaves such a row.
-/

namespace Unroller

open Unroller.Graph Machine Cloning

variable {g k k' : Graph} {loop : NaturalLoop} {shape : LoopShape}
  {preHeader following b c : BlockId}
  {s : Session} {n : Nat} {Q : BlockId → BlockId → Prop}

/-! ## The tail -/

/-- The block `c` ends a copy of the body of a loop: in full unrolling it goes on to `following`, in
partial unrolling it does so where the tail stays in the loop. -/
structure TailLeads (g : Graph) (shape : LoopShape) (following : BlockId) (k : Graph)
    (c : BlockId) :
    Prop where
  visit_full : shape.isFull = true →
    ∀ store, visit k c store = (runBody g shape.tail store).map (.leave 0)
  full : shape.isFull = true →
    ∀ slot, k.successor? c slot = if slot = 0 then some following else none
  visit_part : shape.isFull = false → ∀ store, visit k c store = visit g shape.tail store
  steps_part : shape.isFull = false → stepCount? k c = stepCount? g shape.tail
  stay : shape.isFull = false → k.successor? c shape.inLoopSlot = some following
  exit : shape.isFull = false → k.successor? c shape.exitSlot = some shape.next
  slot : shape.isFull = false → ∀ slot t, k.successor? c slot = some t →
    slot = shape.inLoopSlot ∨ slot = shape.exitSlot

theorem TailLeads.mono (hw : k.WellFormed) (ht : TailLeads g shape following k c)
    (hs : SameCode k k' c) : TailLeads g shape following k' c where
  visit_full := fun hf store => by rw [visit_sameCode hw hs, ht.visit_full hf]
  full := fun hf slot => by rw [hs.successor, ht.full hf]
  visit_part := fun hf store => by rw [visit_sameCode hw hs, ht.visit_part hf]
  steps_part := fun hf => by rw [stepCount?_sameCode hs, ht.steps_part hf]
  stay := fun hf => by rw [hs.successor, ht.stay hf]
  exit := fun hf => by rw [hs.successor, ht.exit hf]
  slot := fun hf slot t h => ht.slot hf slot t (by rw [← hs.successor, h])

namespace Graph.LoopParts

variable (hp : g.LoopParts loop preHeader shape.tail shape.next shape.inLoopSlot)

include hp

theorem exitSlot_ne : shape.exitSlot ≠ shape.inLoopSlot := by
  rw [LoopShape.exitSlot]
  rcases hp.slot with h | h <;> omega

/-- The tail has two slots. -/
theorem tail_slot (hw : g.WellFormed) {slot : Nat} {t : BlockId}
    (ht : g.successor? shape.tail slot = some t) :
    slot = shape.inLoopSlot ∨ slot = shape.exitSlot := by
  have hlt := slot_lt_of_successor? ht
  obtain ⟨m, node, hterm, _⟩ := terminalNode?_of_successor? ht
  obtain ⟨block, hb, _⟩ := terminalNode?_eq_some_iff.1 hterm
  obtain ⟨_, _, node', _, _, hok, hterm'⟩ := hw.terminal hb
  rw [hterm] at hterm'
  obtain ⟨rfl, rfl⟩ : m = _ ∧ node = node' := by simpa using hterm'
  have hkind : node.kind = .branch := by
    have := hp.tail_branch
    simpa [endsInBranch, hterm] using this
  have hcount : g.successorCount shape.tail = 2 := by
    obtain ⟨record, -, hpayload⟩ := branch_of_admits hkind hok.admits
    rw [successorCount, hterm]
    simp [slotCount, hpayload]
  rw [hcount] at hlt
  rw [LoopShape.exitSlot]
  rcases hp.slot with h | h <;> omega

/-- The tail leads somewhere by its second slot, so it is no jump. -/
theorem exists_second : ∃ t, g.successor? shape.tail 1 = some t := by
  obtain ⟨stay, _, hstay⟩ := hp.stay
  rcases hp.slot with h | h
  · exact ⟨shape.next, by simpa [h] using hp.exit⟩
  · exact ⟨stay, by rw [← h, hstay]⟩

end Graph.LoopParts

/-- A block with a second slot does not end in a jump. -/
theorem not_jump_of_second (hw : k.WellFormed) {t : BlockId} (ht : k.successor? c 1 = some t) :
    ∃ block m last, k.block? c = some block ∧ k.terminalNode? c = some (m, last) ∧
      last.kind ≠ .jump := by
  obtain ⟨m, last, hterm, htarget⟩ := terminalNode?_of_successor? ht
  obtain ⟨block, hb, _⟩ := terminalNode?_eq_some_iff.1 hterm
  refine ⟨block, m, last, hb, hterm, fun hkind => ?_⟩
  obtain ⟨_, _, last', _, _, hok, hterm'⟩ := hw.terminal hb
  rw [hterm] at hterm'
  obtain ⟨rfl, rfl⟩ : m = _ ∧ last = last' := by simpa using hterm'
  have hadmits := hok.admits
  cases hpayload : last.payload <;> simp [hkind, hpayload, admits, slotTarget?] at hadmits htarget

/-- A tail that was cut short leads on. -/
theorem tailLeads_cut (hfull : shape.isFull = true) (hw : k.WellFormed) {block : Block}
    {last : Node}
    {kept : List NodeId} {jump : NodeId} (hb : k.block? c = some block)
    (hc : Cut k c block last following kept jump k')
    (hbody : ∀ store, runBody k c store = runBody g shape.tail store) :
    TailLeads g shape following k' c where
  visit_full := fun _ store => by rw [visit_cut hw hb hc, hbody]
  full := fun _ slot => hc.successor?_eq slot
  visit_part := fun h => by simp [hfull] at h
  steps_part := fun h => by simp [hfull] at h
  stay := fun h => by simp [hfull] at h
  exit := fun h => by simp [hfull] at h
  slot := fun h => by simp [hfull] at h

/-- In partial unrolling it is enough to lead the slot elsewhere that stays in the loop. -/
theorem tailLeads_redirected (hpart : shape.isFull = false) (hg : g.WellFormed)
    (hp : g.LoopParts loop preHeader shape.tail shape.next shape.inLoopSlot) (hw : k.WellFormed)
    (hc : k.isLive c = true) (ht : Twin g shape.tail k c)
    (hr : Redirected k c shape.inLoopSlot following k') : TailLeads g shape following k' c where
  visit_full := fun hfull => by simp [hpart] at hfull
  full := fun hfull => by simp [hpart] at hfull
  visit_part := fun _ store => by rw [visit_retargeted hw hr.toRetargeted hc, ht.visit]
  steps_part := fun _ => by rw [stepCount?_retargeted hr.toRetargeted, ht.steps]
  stay := fun _ => by rw [hr.self, if_pos rfl]
  exit := fun _ => by
    rw [hr.self, if_neg hp.exitSlot_ne, ht.successor]
    exact hp.exit
  slot := by
    intro _ slot t hslot
    by_cases hstay : slot = shape.inLoopSlot
    · exact .inl hstay
    · rw [hr.self, if_neg hstay, ht.successor] at hslot
      exact hp.tail_slot hg hslot

/-- Leading the other slot where it leads already changes nothing. -/
theorem TailLeads.redirected_exit (hpart : shape.isFull = false)
    (hne : shape.exitSlot ≠ shape.inLoopSlot) (hw : k.WellFormed) (hc : k.isLive c = true)
    (ht : TailLeads g shape following k c) (hr : Redirected k c shape.exitSlot shape.next k') :
    TailLeads g shape following k' c where
  visit_full := fun hfull => by simp [hpart] at hfull
  full := fun hfull => by simp [hpart] at hfull
  visit_part := fun _ store => by rw [visit_retargeted hw hr.toRetargeted hc, ht.visit_part hpart]
  steps_part := fun _ => by rw [stepCount?_retargeted hr.toRetargeted, ht.steps_part hpart]
  stay := fun _ => by rw [hr.self, if_neg hne.symm, ht.stay hpart]
  exit := fun _ => by rw [hr.self, if_pos rfl]
  slot := by
    intro _ slot t hslot
    by_cases hexit : slot = shape.exitSlot
    · exact .inr hexit
    · rw [hr.self, if_neg hexit] at hslot
      exact ht.slot hpart slot t hslot

/-! ## Jumps -/

/-- The block ends in a jump. -/
def Graph.EndsInJump (g : Graph) (b : BlockId) : Prop :=
  ∃ m node, g.terminalNode? b = some (m, node) ∧ node.kind = .jump

theorem Graph.EndsInJump.sameCode (hj : g.EndsInJump c) (hs : SameCode g k c) : k.EndsInJump c := by
  obtain ⟨m, node, hterm, hkind⟩ := hj
  obtain ⟨block, hb, hlast, hnode, hterminal⟩ := terminalNode?_eq_some_iff.1 hterm
  obtain ⟨⟨old, new, hold, hnew, himage, _⟩, _⟩ := hs
  rw [hb] at hold
  obtain rfl := Option.some.inj hold
  obtain ⟨image, hi, hni⟩ := himage.node m (List.mem_of_getLast? hlast) node hnode
  have hnodes : new.nodes = block.nodes := by simpa using himage.nodes
  exact ⟨m, image, terminalNode?_eq_some_iff.2 ⟨new, hnew, by rw [hnodes, hlast], hi,
    by rw [hni.kind, hterminal]⟩, by rw [hni.kind, hkind]⟩

/-- The end of a copy of the body, once it has been seen to: in full unrolling it jumps. -/
structure Stitched (g : Graph) (shape : LoopShape) (following : BlockId) (k : Graph) (c : BlockId) :
    Prop extends TailLeads g shape following k c where
  jump : shape.isFull = true → k.EndsInJump c

theorem Stitched.mono (hw : k.WellFormed) (ht : Stitched g shape following k c)
    (hs : SameCode k k' c) : Stitched g shape following k' c where
  toTailLeads := ht.toTailLeads.mono hw hs
  jump := fun hfull => (ht.jump hfull).sameCode hs

theorem stitched_cut (hfull : shape.isFull = true) (hw : k.WellFormed) {block : Block} {last : Node}
    {kept : List NodeId} {jump : NodeId} (hb : k.block? c = some block)
    (hc : Cut k c block last following kept jump k')
    (hbody : ∀ store, runBody k c store = runBody g shape.tail store) :
    Stitched g shape following k' c where
  toTailLeads := tailLeads_cut hfull hw hb hc hbody
  jump := fun _ => by
    obtain ⟨node, hterm, _⟩ := hc.terminalNode?_self
    obtain ⟨_, _, _, hnode, _⟩ := terminalNode?_eq_some_iff.1 hterm
    obtain ⟨node', hnode', hkind, _⟩ := hc.jump_node
    rw [hnode] at hnode'
    exact ⟨jump, node, hterm, Option.some.inj hnode' ▸ hkind⟩

theorem stitched_of_part (hpart : shape.isFull = false) (ht : TailLeads g shape following k c) :
    Stitched g shape following k c where
  toTailLeads := ht
  jump := fun hfull => by simp [hpart] at hfull

/-! ## The hook -/

theorem editGraph_eq_ok_iff {edit : Graph → Except Violation Graph} :
    editGraph edit k = .ok () k' ↔ edit k = .ok k' := by
  rw [editGraph]
  cases edit k <;> simp

/-- What the hook does to the copy of the tail in full unrolling. -/
theorem stitch_full (hfull : shape.isFull = true) (hok : k.convertToJump c following = .ok k') :
    shape.stitch following shape.tail c k = .ok true k' := by
  simp only [LoopShape.stitch, if_true, hfull]
  rw [bind_ok (editGraph_eq_ok_iff.2 hok)]
  rfl

/-- What it does in partial unrolling: first to the slot that stays in the loop, then to the one
that leaves it. -/
theorem stitch_part {k₁ : Graph} (hpart : shape.isFull = false)
    (hok₁ : k.setSuccessor c shape.inLoopSlot following = .ok k₁)
    (hok₂ : k₁.setSuccessor c shape.exitSlot shape.next = .ok k') :
    shape.stitch following shape.tail c k = .ok true k' := by
  simp only [LoopShape.stitch, if_true, hpart, Bool.false_eq_true, if_false]
  rw [bind_ok (editGraph_eq_ok_iff.2 hok₁), bind_ok (editGraph_eq_ok_iff.2 hok₂)]
  rfl

/-- **The hook of a loop** ends the copy of its tail. -/
theorem stitch_spec (hw : g.WellFormed)
    (hp : g.LoopParts loop preHeader shape.tail shape.next shape.inLoopSlot)
    (following : BlockId) :
    HookSpec g shape.tail following (shape.stitch following) (Stitched g shape following) where
  other := by
    intro b c k hb
    rw [LoopShape.stitch, if_neg hb]
    rfl
  stable := fun k k' c hw' ht hs => ht.mono hw' hs
  tail := by
    intro c k he hfollowing hsize hclive ht
    have hkw := he.sound.wellFormed
    cases hfull : shape.isFull with
    | true =>
      obtain ⟨t, hsecond⟩ := hp.exists_second
      obtain ⟨block, m, last, hb, hterm, hkind⟩ :=
        not_jump_of_second hkw ((ht.successor 1).trans hsecond)
      obtain ⟨k', kept, jump, hok, hcut⟩ := convertToJump_ok hb hterm hkind following
      exact ⟨k', stitch_full hfull hok, he.cut hb hterm hkind hcut hsize hfollowing,
        isLive_of_block? hcut.block?_self, fun d hd hlive => hcut.sameCode hkw hlive hd,
        stitched_cut hfull hkw hb hcut ht.body⟩
    | false =>
      obtain ⟨stay, _, hstay⟩ := hp.stay
      have hnext : g.isLive shape.next = true := hw.isLive_successor hp.exit
      obtain ⟨k₁, hok₁, hr₁⟩ := setSuccessor_ok hkw ((ht.successor shape.inLoopSlot).trans hstay)
        following
      have he₁ := he.redirected hr₁ hsize hfollowing
      have hlive₁ : ∀ d, k.isLive d = true → k₁.isLive d = true := fun d hd => by
        rw [hr₁.toRetargeted.isLive_eq, hd]
      have htail₁ := tailLeads_redirected hfull hw hp hkw hclive ht hr₁
      obtain ⟨k₂, hok₂, hr₂⟩ :=
        setSuccessor_ok he₁.sound.wellFormed (htail₁.exit hfull) shape.next
      refine ⟨k₂, stitch_part hfull hok₁ hok₂,
        he₁.redirected hr₂ hsize (he₁.sameCode _ hnext).isLive, ?_, fun d hd hlive => ?_,
        stitched_of_part hfull (htail₁.redirected_exit hfull hp.exitSlot_ne he₁.sound.wellFormed
          (hlive₁ c hclive) hr₂)⟩
      · rw [hr₂.toRetargeted.isLive_eq, hlive₁ c hclive]
      · exact (he.sameCode_redirected hr₁ hsize hlive hd).trans
          (he₁.sameCode_redirected hr₂ hsize (hlive₁ d hlive) hd)

/-! ## One copy of the body -/

/-- A copy of the body of a loop: `Q b c` says that `c` is the copy of `b`.  The copy of the tail
leads to `following`. -/
structure Generation (g : Graph) (loop : NaturalLoop) (shape : LoopShape) (k : Graph)
    (Q : BlockId → BlockId → Prop) (following : BlockId) : Prop where
  member : ∀ b c, Q b c → b ∈ loop.blocks
  live : ∀ b c, Q b c → k.isLive c = true
  visit : ∀ b c, Q b c → b ≠ shape.tail → ∀ store, visit k c store = visit g b store
  steps : ∀ b c, Q b c → b ≠ shape.tail → stepCount? k c = stepCount? g b
  successor : ∀ b c, Q b c → b ≠ shape.tail → ∀ slot t, g.successor? b slot = some t →
    ∃ t', k.successor? c slot = some t' ∧ Q t t'
  slot : ∀ b c, Q b c → b ≠ shape.tail → ∀ slot t', k.successor? c slot = some t' →
    ∃ t, g.successor? b slot = some t
  tail : ∀ c, Q shape.tail c → TailLeads g shape following k c

theorem Generation.mono (hw : k.WellFormed) (hg : Generation g loop shape k Q following)
    (hs : ∀ b c, Q b c → SameCode k k' c) : Generation g loop shape k' Q following where
  member := hg.member
  live := fun b c h => (hs b c h).isLive
  visit := fun b c h hb store => by rw [visit_sameCode hw (hs b c h), hg.visit b c h hb]
  steps := fun b c h hb => by rw [stepCount?_sameCode (hs b c h), hg.steps b c h hb]
  successor := by
    intro b c h hb slot t ht
    obtain ⟨t', ht', hQ⟩ := hg.successor b c h hb slot t ht
    exact ⟨t', by rw [(hs b c h).successor, ht'], hQ⟩
  slot := fun b c h hb slot t' ht' => hg.slot b c h hb slot t' (by rw [← (hs b c h).successor, ht'])
  tail := fun c h => (hg.tail c h).mono hw (hs _ c h)

/-! ## Copies in a row -/

/-- The block `c` begins a row of `n` copies of the body of a loop.  What follows them is the block
after the loop in full unrolling, and the loop itself in partial unrolling. -/
inductive Chain (g : Graph) (loop : NaturalLoop) (shape : LoopShape) (k : Graph) :
    Nat → BlockId → Prop where
  | nil : Chain g loop shape k 0 (if shape.isFull then shape.next else shape.header)
  | cons {n : Nat} {Q : BlockId → BlockId → Prop} {following c : BlockId}
    (generation : Generation g loop shape k Q following)
    (further : ∀ b c, Q b c → g.blocks.size ≤ c) (head : Q shape.header c)
    (rest : Chain g loop shape k n following) : Chain g loop shape k (n + 1) c

theorem Chain.mono (hw : k.WellFormed) (hc : Chain g loop shape k n c)
    (hs : ∀ d, g.blocks.size ≤ d → k.isLive d = true → SameCode k k' d) :
    Chain g loop shape k' n c := by
  induction hc with
  | nil => exact .nil
  | cons generation further head _ ih =>
    exact .cons (generation.mono hw fun b c h => hs c (further b c h) (generation.live b c h))
      further head ih

/-- **Making copies of the body** succeeds, and leaves them in a row. -/
theorem copyBodies_ok (hr : Region g loop.blocks shape.tail)
    (hp : g.LoopParts loop preHeader shape.tail shape.next shape.inLoopSlot)
    (hheader : shape.header = loop.header) (count : Nat) (he : Enlarged g s.graph)
    (hlive : s.graph.isLive following = true) (hchain : Chain g loop shape s.graph n following) :
    ∃ c s', shape.copyBodies count following s = .ok c s' ∧ Enlarged g s'.graph ∧
      s'.graph.isLive c = true ∧ Chain g loop shape s'.graph (n + count) c := by
  induction count generalizing n following s with
  | zero => exact ⟨following, s, rfl, he, hlive, hchain⟩
  | succ count ih =>
    have hmem : shape.header ∈ loop.blocks := hheader ▸ hp.natural.header_mem
    obtain ⟨c, s₁, hblock, hcopying₁, hlookup, hprogress⟩ :=
      block_ok hr (stitch_spec hr.wellFormed hp following) he hlive hmem
    have hdone : ∀ b c, s₁.blockCopies.lookup b = some c →
        Done g shape.tail (Stitched g shape following) s₁ b c :=
      fun b c h => hprogress.done b c h rfl
    have hgeneration : Generation g loop shape s₁.graph
        (fun b c => s₁.blockCopies.lookup b = some c) following := by
      refine ⟨fun b c h => (hcopying₁.copy b c h).1, fun b c h => (hcopying₁.copy b c h).2.2,
        fun b c h => (hdone b c h).visit, fun b c h => (hdone b c h).steps, ?_,
        fun b c h => (hdone b c h).slot, fun c h => ((hdone _ c h).tail rfl).toTailLeads⟩
      intro b c h hb slot t ht
      obtain ⟨t', hcopy, ht'⟩ := (hdone b c h).successor hb slot t ht
      exact ⟨t', ht', hcopy⟩
    have hchain₁ : Chain g loop shape s₁.graph (n + 1) c :=
      .cons hgeneration (fun b c h => (hcopying₁.copy b c h).2.1) hlookup
        (hchain.mono he.sound.wellFormed fun d _ hd => hprogress.sameCode d hd)
    obtain ⟨c', s₂, hok₂, he₂, hlive₂, hchain₂⟩ :=
      ih hcopying₁.enlarged (hcopying₁.copy _ _ hlookup).2.2 hchain₁
    refine ⟨c', s₂, ?_, he₂, hlive₂, ?_⟩
    · rw [LoopShape.copyBodies]
      have hclear : Cloning.clear s = .ok ⟨⟩ s.clear := rfl
      rw [bind_ok hclear, bind_ok hblock]
      exact hok₂
    · rwa [Nat.add_assoc, Nat.add_comm 1 count] at hchain₂

end Unroller
