import Mathlib
import Unroller.Proofs.Digraph.Predecessors
import Unroller.Proofs.Loop.Entries
import Unroller.Proofs.Loop.Pads

/-!
# Every way into and out of an accepted loop

The shape of a loop names the blocks by which control comes in and goes out.  It misses none.

* `Ways`: what the shape says about the edges into the loop, out of it and back to its header.
* `loopShape_ways`: an accepted loop has no other edges of these sorts.
* `entryPad_preHeader`: the block named as the pre-header can be a member, if the entry is a pad
  that a block of the loop leads to.
-/

namespace Unroller

open Unroller.Graph

variable {g : Graph} {loop : NaturalLoop} {shape : LoopShape} {config : UnrollConfig}
  {b c d : BlockId}

namespace Graph

/-- The chain of pads before `b`, each with a single predecessor, ends at `first`. -/
def ChainEnds (g : Graph) (b first : BlockId) : Prop :=
  Relation.ReflTransGen g.IsPadAfter b first ∧ ∀ q, ¬ g.IsPadAfter first q

/-- All ways into a loop, out of it and back to its header. -/
structure Ways (g : Graph) (loop : NaturalLoop) (shape : LoopShape) : Prop where
  header_mem : shape.header ∈ loop.blocks
  tail_mem : shape.tail ∈ loop.blocks
  next_notMem : shape.next ∉ loop.blocks
  entering : ∀ b t, g.flow.Reaches entry b → b ∉ loop.blocks → t ∈ g.successors b →
    t ∈ loop.blocks → t = shape.header ∧ g.ChainEnds b shape.preHeader
  leaving : ∀ b ∈ loop.blocks, ∀ slot t, g.successor? b slot = some t → t ∉ loop.blocks →
    b = shape.tail ∧ slot = shape.exitSlot ∧ t = shape.next
  returning : ∀ b ∈ loop.blocks, ∀ slot, g.successor? b slot = some shape.header →
    (b = shape.tail ∧ slot = shape.inLoopSlot) ∨
      ∃ first, g.successor? shape.tail shape.inLoopSlot = some first ∧
        g.IsPadAfter first shape.tail ∧ Relation.ReflTransGen g.IsPadAfter b first
  branch : g.endsInBranch shape.tail = true
  slots : ∀ slot, (∃ t, g.successor? shape.tail slot = some t) ↔
    slot = shape.inLoopSlot ∨ slot = shape.exitSlot
  exit : g.successor? shape.tail shape.exitSlot = some shape.next

/-! ## Chains inside and outside a loop -/

/-- Blocks from which a member is reached over a chain of pads are members. -/
theorem LoopParts.mem_of_reflTransGen {preHeader : BlockId} (hg : g.Analyzed)
    (hp : g.LoopParts loop preHeader shape.tail shape.next shape.inLoopSlot)
    (hb : b ∈ loop.blocks) (hchain : Relation.ReflTransGen g.IsPadAfter b c) : c ∈ loop.blocks := by
  obtain ⟨p, hpmem, hedge, _⟩ := hp.returning
  induction hchain with
  | refl => exact hb
  | tail _ hpad ih => exact before_mem hg hp.natural ⟨p, hpmem, hedge⟩ ih hpad

/-- What dominates the only block before a pad dominates the pad, unless control starts there. -/
theorem dominates_of_isPadAfter (hg : g.Analyzed) (hpad : g.IsPadAfter b c) (hb : b ≠ entry)
    (hdom : g.flow.Dominates entry d c) : g.flow.Dominates entry d b := by
  obtain ⟨hreach, hedge⟩ := hg.edge_of_isPadAfter hpad
  refine Digraph.dominates_of_preds (hreach.step (hg.wellFormed.edge_iff.2 hedge)) hb ?_
  intro q hq hqb
  rw [hg.eq_of_isPadAfter hpad hq (hg.wellFormed.edge_iff.1 hqb)]
  exact hdom

/-- A block that the header does not dominate is not reached from a member over a chain of pads,
unless control starts in between. -/
theorem not_dominates_of_reflTransGen (hg : g.Analyzed) (he : g.EntryApart)
    (hb : ¬ g.flow.Dominates entry d b) (hchain : Relation.ReflTransGen g.IsPadAfter b c) :
    ¬ g.flow.Dominates entry d c := by
  induction hchain with
  | refl => exact hb
  | tail _ hpad ih =>
    refine fun hdom => ih (dominates_of_isPadAfter hg hpad ?_ hdom)
    rintro rfl
    obtain ⟨hreach, hedge⟩ := hg.edge_of_isPadAfter hpad
    obtain ⟨block, hblock, hflag⟩ := hpad.isPad
    exact he block hblock hflag _ hreach hedge

/-! ## The edges of an accepted loop -/

section accepted

variable (hs : g.Sound) (hg : g.Analyzed) (hloop : loop ∈ g.loopForest.loops)
  (ha : g.Accepted config loop shape)

include hs hg hloop ha

/-- Control comes in at the header, over a chain of pads from the pre-header. -/
theorem Accepted.entering {t : BlockId} (hb : g.flow.Reaches entry b) (hout : b ∉ loop.blocks)
    (hedge : t ∈ g.successors b) (hin : t ∈ loop.blocks) :
    t = shape.header ∧ g.ChainEnds b shape.preHeader := by
  have hp := loopParts_of_accepted hg hloop ha
  obtain rfl := hp.natural.edge_into hb (hg.wellFormed.edge_iff.2 hedge) hout hin
  rw [← ha.skipPads_outside hg hloop hb hout hedge]
  exact ⟨ha.header.symm, g.reflTransGen_skipPads g.blocks.size b,
    not_isPadAfter_skipPads hs hg hedge (hp.not_isPadAfter_header hg)⟩

omit hs in
/-- It leaves by the exit slot of the tail. -/
theorem Accepted.leaving {slot : Nat} {t : BlockId} (hb : b ∈ loop.blocks)
    (ht : g.successor? b slot = some t) (hout : t ∉ loop.blocks) :
    b = shape.tail ∧ slot = shape.exitSlot ∧ t = shape.next := by
  have hp := loopParts_of_accepted hg hloop ha
  obtain ⟨stay, hstayMem, hstay⟩ := hp.stay
  have htail : b = shape.tail := by
    by_contra hne
    exact hout (hp.closed b hb hne t (mem_successors_of_successor? ht))
  subst htail
  rcases hp.tail_slot hg.wellFormed ht with rfl | rfl
  · exact absurd (Option.some.inj (hstay.symm.trans ht) ▸ hstayMem) hout
  · exact ⟨rfl, rfl, (Option.some.inj (hp.exit.symm.trans ht)).symm⟩

omit hs in
/-- It comes back to the header by the other slot of the tail, over a chain of pads. -/
theorem Accepted.returning {slot : Nat} (hb : b ∈ loop.blocks)
    (ht : g.successor? b slot = some loop.header) :
    (b = shape.tail ∧ slot = shape.inLoopSlot) ∨
      ∃ first, g.successor? shape.tail shape.inLoopSlot = some first ∧
        g.IsPadAfter first shape.tail ∧ Relation.ReflTransGen g.IsPadAfter b first := by
  have hp := loopParts_of_accepted hg hloop ha
  have hchain := g.reflTransGen_skipPads g.blocks.size b
  rw [ha.skipPads_inside hg hloop hb (mem_successors_of_successor? ht)] at hchain
  -- a slot of the tail that leads to a member is not the one that leaves the loop
  have hstays : ∀ {i t}, g.successor? shape.tail i = some t → t ∈ loop.blocks →
      i = shape.inLoopSlot := by
    intro i t hi hmem
    refine (hp.tail_slot hg.wellFormed hi).resolve_right ?_
    rintro rfl
    exact hp.next_notMem (Option.some.inj (hp.exit.symm.trans hi) ▸ hmem)
  rcases Relation.ReflTransGen.cases_tail hchain with heq | ⟨first, hchain, hfirst⟩
  · subst heq
    exact .inl ⟨rfl, hstays ht hp.natural.header_mem⟩
  · obtain ⟨i, hi⟩ := mem_successors_iff_successor?.1 (hg.edge_of_isPadAfter hfirst).2
    obtain rfl := hstays hi (hp.mem_of_reflTransGen hg hb hchain)
    exact .inr ⟨first, hi, hfirst, hchain⟩

omit hs in
/-- The pre-header is not a member, unless control starts at a pad that something leads to. -/
theorem Accepted.preHeader_notMem (he : g.EntryApart) : shape.preHeader ∉ loop.blocks := by
  intro hmem
  have hp := loopParts_of_accepted hg hloop ha
  obtain ⟨p, hreach, hedge, hout⟩ := hp.exists_outside
  have hchain := g.reflTransGen_skipPads g.blocks.size p
  rw [ha.skipPads_outside hg hloop hreach hout (hg.wellFormed.edge_iff.1 hedge)] at hchain
  refine not_dominates_of_reflTransGen hg he ?_ hchain (hp.natural.dominated _ hmem)
  exact fun hdom => hout (hp.natural.back p hedge hdom)

end accepted

end Graph

/-- **An accepted shape describes every way in and out of the loop**: control comes in at the header
only, from the pre-header over pads; it leaves by the exit slot of the tail only; and it comes back
to the header by the other slot of the tail, over pads.  The pre-header is outside the loop, unless
the entry is a pad that something leads to. -/
theorem loopShape_ways (hg : Finished g) (hloop : loop ∈ g.loopForest.loops)
    (hshape : g.loopShape config loop = .ok shape) :
    g.Ways loop shape ∧ (g.EntryApart → shape.preHeader ∉ loop.blocks) := by
  obtain ⟨hs, hg, _⟩ := hg.sound_analyzed
  have ha := accepted_of_loopShape hshape
  have hp := loopParts_of_accepted hg hloop ha
  obtain ⟨stay, _, hstay⟩ := hp.stay
  have hslots : ∀ slot, (∃ t, g.successor? shape.tail slot = some t) ↔
      slot = shape.inLoopSlot ∨ slot = shape.exitSlot := by
    refine fun slot => ⟨fun ⟨t, ht⟩ => hp.tail_slot hg.wellFormed ht, ?_⟩
    rintro (rfl | rfl)
    · exact ⟨stay, hstay⟩
    · exact ⟨shape.next, hp.exit⟩
  refine ⟨?_, ha.preHeader_notMem hg hloop⟩
  exact {
    header_mem := ha.header ▸ hp.natural.header_mem
    tail_mem := hp.tail_mem
    next_notMem := hp.next_notMem
    entering := fun b t hb hout => ha.entering hs hg hloop hb hout
    leaving := fun b hb slot t => ha.leaving hg hloop hb
    returning := fun b hb slot ht => ha.returning hg hloop hb (ha.header ▸ ht)
    branch := hp.tail_branch
    slots := hslots
    exit := hp.exit }

theorem loopShape_ways_countingLoop :
    (Builder.countingLoop true).graph.threadLocals.Ways countingBody countingShape ∧
      countingShape.preHeader ∉ countingBody.blocks := by
  have hways := loopShape_ways (finished_countingLoop true) (countingBody_mem true)
    (loopShape_of_accepted accepted_countingLoop)
  exact ⟨hways.1, hways.2 (entryApart_countingLoop true)⟩

/-! ## A pre-header inside the loop -/

namespace Builder

/-- A pad at the entry, and a loop after it that leads back to the pad. -/
def selfEntered : Builder :=
  let b := ((start 2 "" none).edgePad 1).2
  let b := (b.block 1).2.switchTo 1
  let b := (b.getLocal 0).2
  let b := (b.constant (.int32 1)).2
  let b := (b.binary .arithAdd (.typed 1 .int32) (.typed 2 .int32)).2
  let b := (b.setLocal 0 (.typed 3 .int32)).2
  let b := (b.getLocal 1).2
  let b := (b.binary .compareLess (.typed 3 .int32) (.typed 5 .int32)).2
  (b.branch (.untyped 6) 1 0).2

theorem made_selfEntered : selfEntered.Made := by
  have hblocks := (((Made.start 2 "" none).edgePad 1).block 1).switchTo 1
  exact ((((((hblocks.node _ _ _).node _ _ _).node _ _ _).node _ _ _).node _ _ _).node _ _ _).branch
    _ _ _

end Builder

theorem finished_selfEntered : Finished Builder.selfEntered.graph.threadLocals :=
  .of_uncached Builder.made_selfEntered (Builder.finish_of_defects rfl (by decide +kernel))
    ⟨rfl, rfl⟩

/-- The inner loop of `selfEntered`. -/
def selfEnteredInner : NaturalLoop := ⟨1, 1, [1], BitSet.ofList 2 [1], [1]⟩

/-- The shape found for it: the entry is looked through. -/
def selfEnteredShape : LoopShape where
  header := 1
  preHeader := 1
  tail := 1
  next := 0
  inLoopSlot := 0
  inverse := false
  induction := ⟨0, 3, .arithAdd, 1, .compareLess, .node 3, .node 5⟩
  iterations := none
  body := { blocks := 1, material := 7, numeric := 2, localAccesses := 3 }

theorem accepted_selfEntered :
    Builder.selfEntered.graph.threadLocals.Accepted {} selfEnteredInner selfEnteredShape where
  header := rfl
  preHeader := by cbv
  bottom := by cbv
  induction := by decide +kernel
  iterations := by cbv
  body := by decide +kernel
  profitable := by decide +kernel

/-- **The pre-header can be a member**, if the entry is a pad that the loop leads to. -/
theorem entryPad_preHeader :
    Finished Builder.selfEntered.graph.threadLocals ∧
      selfEnteredInner ∈ Builder.selfEntered.graph.threadLocals.loopForest.loops ∧
      Builder.selfEntered.graph.threadLocals.loopShape {} selfEnteredInner = .ok selfEnteredShape ∧
      selfEnteredShape.preHeader ∈ selfEnteredInner.blocks := by
  refine ⟨finished_selfEntered, ?_, loopShape_of_accepted accepted_selfEntered, ?_⟩
  · have hsecond : Builder.selfEntered.graph.threadLocals.loopForest.loops[1]? =
        some selfEnteredInner := by cbv
    exact List.mem_of_getElem? hsecond
  · simp [selfEnteredShape, selfEnteredInner]

end Unroller
