import Mathlib.Tactic
import Unroller.Loop.Shape
import Unroller.Proofs.Digraph.NaturalLoops
import Unroller.Proofs.Graph.Reachability
import Unroller.Proofs.Loop.Counting

/-!
# The shape of an accepted loop

What the checks on a loop establish when they accept it, read off the control-flow graph.

* `padsBefore` lists the pads that are looked through on the way back from a block.
* `Analyzed`: the reachability data and the kept analyses are those of the graph.
* `LoopParts`: the loop is natural, only its tail leaves it, and by one slot; and the blocks that
  lead to the header from outside are the pre-header and pads that come after it.
* `loopParts_of_accepted`: an accepted loop has these parts.
-/

namespace Unroller.Graph

open Unroller.Digraph (IsNaturalLoop)

variable {g : Graph} {b c : BlockId} {block : Block} {loop : NaturalLoop}

/-! ## Looking through pads -/

/-- The pads looked through from a block on, at most `fuel` of them. -/
def padsBefore (g : Graph) : (fuel : Nat) → BlockId → List BlockId
  | 0, _ => []
  | fuel + 1, b =>
    match g.block? b with
    | some block =>
      if block.flags.edgePad then
        match block.preds with
        | [single] => b :: padsBefore g fuel single
        | _ => []
      else []
    | none => []

/-- The pads looked through between a header and the block that enters the loop. -/
def lookedThrough (g : Graph) (header : BlockId) : List BlockId :=
  ((g.predecessors header).filter fun p => !g.dominatorTree.dominates header p).flatMap
    (g.padsBefore g.blocks.size)

/-- A pad with a single predecessor. -/
def IsPadAfter (g : Graph) (b before : BlockId) : Prop :=
  ∃ block, g.block? b = some block ∧ block.flags.edgePad = true ∧ block.preds = [before]

/-- One step back: a pad with a single predecessor is looked through, any other block is not. -/
theorem skipPads_succ (g : Graph) (fuel : Nat) (b : BlockId) :
    (∃ before, g.IsPadAfter b before ∧ g.skipPads (fuel + 1) b = g.skipPads fuel before ∧
      g.padsBefore (fuel + 1) b = b :: g.padsBefore fuel before) ∨
    (g.skipPads (fuel + 1) b = b ∧ g.padsBefore (fuel + 1) b = []) := by
  rw [skipPads, padsBefore]
  cases hb : g.block? b with
  | none => exact .inr ⟨rfl, rfl⟩
  | some block =>
    by_cases hpad : block.flags.edgePad = true
    · rcases hpreds : block.preds with _ | ⟨before, _ | ⟨second, rest⟩⟩
      · exact .inr ⟨by simp [hpad, hpreds], by simp [hpad, hpreds]⟩
      · exact .inl ⟨before, ⟨block, hb, hpad, hpreds⟩, by simp [hpad, hpreds],
          by simp [hpad, hpreds]⟩
      · exact .inr ⟨by simp [hpad, hpreds], by simp [hpad, hpreds]⟩
    · exact .inr ⟨by simp [hpad], by simp [hpad]⟩

/-- Each pad looked through comes after another one, or after the block where the search ends. -/
theorem padsBefore_chain (g : Graph) (fuel : Nat) (b : BlockId) :
    (b ∈ g.padsBefore fuel b ∨ b = g.skipPads fuel b) ∧
    ∀ c ∈ g.padsBefore fuel b, ∃ before, g.IsPadAfter c before ∧
      (before ∈ g.padsBefore fuel b ∨ before = g.skipPads fuel b) := by
  induction fuel generalizing b with
  | zero => exact ⟨.inr rfl, by simp [padsBefore]⟩
  | succ fuel ih =>
    rcases g.skipPads_succ fuel b with ⟨before, hpad, hskip, hpads⟩ | ⟨hskip, hpads⟩
    · obtain ⟨hfirst, hrest⟩ := ih before
      rw [hskip, hpads]
      refine ⟨.inl (List.mem_cons_self ..), ?_⟩
      intro c hc
      rcases List.mem_cons.1 hc with rfl | hc
      · exact ⟨before, hpad, hfirst.imp_left (List.mem_cons_of_mem _)⟩
      · obtain ⟨d, hd, hmem⟩ := hrest c hc
        exact ⟨d, hd, hmem.imp_left (List.mem_cons_of_mem _)⟩
    · rw [hskip, hpads]
      exact ⟨.inr rfl, by simp⟩

/-! ## Graphs whose analyses are up to date -/

/-- A well-formed graph whose reachability data and kept analyses are those of its control flow. -/
structure Analyzed (g : Graph) : Prop where
  wellFormed : g.WellFormed
  reach : g.ReachExact
  dominators : g.dominatorTree = g.flow.dominatorTree entry
  loops : g.loopForest = g.flow.loopForest (g.flow.dominatorTree entry) entry

theorem Analyzed.isNaturalLoop (h : g.Analyzed) (hloop : loop ∈ g.loopForest.loops) :
    IsNaturalLoop g.flow entry loop := by
  rw [h.loops] at hloop
  exact Digraph.isNaturalLoop_of_mem hloop

theorem Analyzed.dominates_iff (h : g.Analyzed) :
    g.dominatorTree.dominates b c = true ↔ g.flow.Dominates entry b c := by
  rw [h.dominators, Digraph.dominates_dominatorTree_iff]

theorem Analyzed.mem_predecessors_iff (h : g.Analyzed) (hb : g.isLive b = true) :
    c ∈ g.predecessors b ↔ g.flow.Reaches entry c ∧ g.flow.Edge c b := by
  obtain ⟨block, hblock⟩ := isLive_iff.1 hb
  rw [predecessors, hblock, h.wellFormed.edge_iff]
  exact h.reach.mem_preds_iff b block hblock c

/-- The only block that leads to a pad with a single predecessor. -/
theorem Analyzed.eq_of_isPadAfter (h : g.Analyzed) {before : BlockId} (hpad : g.IsPadAfter b before)
    (hc : g.flow.Reaches entry c) (hcb : b ∈ g.successors c) : c = before := by
  obtain ⟨block, hb, _, hpreds⟩ := hpad
  have hmem := (h.reach.mem_preds_iff b block hb c).2 ⟨hc, hcb⟩
  rw [hpreds] at hmem
  simpa using hmem

theorem Analyzed.edge_of_isPadAfter (h : g.Analyzed) {before : BlockId}
    (hpad : g.IsPadAfter b before) : g.flow.Reaches entry before ∧ b ∈ g.successors before := by
  obtain ⟨block, hb, _, hpreds⟩ := hpad
  exact (h.reach.mem_preds_iff b block hb before).1 (by simp [hpreds])

/-! ## The parts of a loop -/

/-- An accepted loop with its tail. -/
structure LoopParts (g : Graph) (loop : NaturalLoop) (preHeader tail next : BlockId)
    (inLoopSlot : Nat) : Prop where
  natural : IsNaturalLoop g.flow entry loop
  header_ne : loop.header ≠ entry
  tail_mem : tail ∈ loop.blocks
  tail_branch : g.endsInBranch tail = true
  slot : inLoopSlot = 0 ∨ inLoopSlot = 1
  stay : ∃ t ∈ loop.blocks, g.successor? tail inLoopSlot = some t
  exit : g.successor? tail (1 - inLoopSlot) = some next
  next_notMem : next ∉ loop.blocks
  closed : ∀ b ∈ loop.blocks, b ≠ tail → ∀ t ∈ g.successors b, t ∈ loop.blocks
  entering : ∀ p, g.flow.Reaches entry p → loop.header ∈ g.successors p → p ∉ loop.blocks →
    p = preHeader ∨ p ∈ g.lookedThrough loop.header
  approach : ∀ b ∈ g.lookedThrough loop.header, ∃ before, g.IsPadAfter b before ∧
    (before = preHeader ∨ before ∈ g.lookedThrough loop.header)
  returning : ∃ p ∈ loop.blocks, loop.header ∈ g.successors p ∧
    g.skipPads g.blocks.size p = tail

theorem mem_enteringBlocks {header : BlockId} {inLoop : Bool} :
    c ∈ g.enteringBlocks header inLoop ↔
      ∃ p ∈ g.predecessors header, g.dominatorTree.dominates header p = inLoop ∧
        g.skipPads g.blocks.size p = c := by
  simp only [enteringBlocks, List.mem_eraseDups, List.mem_map, List.mem_filter, beq_iff_eq,
    and_assoc]

/-- A step of the checks that has succeeded. -/
theorem preHeader_eq_ok {p : BlockId} (h : g.preHeader loop = .ok p) :
    g.enteringBlocks loop.header false = [p] := by
  rw [preHeader] at h
  split at h
  · rename_i q hq
    rw [hq, Except.ok.inj h]
  · cases h

theorem loopTail_eq_ok {bottom : LoopTail} (h : g.loopTail loop = .ok bottom) :
    g.enteringBlocks loop.header true = [bottom.tail] ∧ g.earlyExit? loop bottom.tail = none ∧
      g.endsInBranch bottom.tail = true ∧
      ∃ stay, (bottom.inLoopSlot = 0 ∨ bottom.inLoopSlot = 1) ∧
        g.successor? bottom.tail bottom.inLoopSlot = some stay ∧
        g.successor? bottom.tail (1 - bottom.inLoopSlot) = some bottom.next ∧
        loop.contains stay = true ∧ loop.contains bottom.next = false := by
  rw [loopTail] at h
  split at h
  case h_2 => cases h
  rename_i tail htail
  split at h
  case h_1 => cases h
  rename_i hearly
  split at h
  case isTrue => cases h
  rename_i hbranch
  split at h
  case h_2 => cases h
  rename_i taken notTaken htaken hnotTaken
  have hbranch : g.endsInBranch tail = true := by simpa using hbranch
  split at h
  case h_1 hin hout =>
    obtain rfl := Except.ok.inj h
    exact ⟨htail, hearly, hbranch, taken, .inl rfl, htaken, hnotTaken, hin, hout⟩
  case h_2 hout hin =>
    obtain rfl := Except.ok.inj h
    exact ⟨htail, hearly, hbranch, notTaken, .inr rfl, hnotTaken, htaken, hin, hout⟩
  case h_3 => cases h

/-- All checks of an accepted loop have succeeded. -/
structure Accepted (g : Graph) (config : UnrollConfig) (loop : NaturalLoop) (shape : LoopShape) :
    Prop where
  header : shape.header = loop.header
  preHeader : g.preHeader loop = .ok shape.preHeader
  bottom : g.loopTail loop = .ok ⟨shape.tail, shape.next, shape.inLoopSlot⟩
  induction : g.inductionVariable loop shape.preHeader shape.tail (shape.inLoopSlot == 1) =
    .ok (shape.induction, shape.inverse)
  iterations : shape.induction.tripCount shape.inverse config.maxIterations =
    .ok shape.iterations
  body : g.bodyStats loop config = .ok shape.body
  profitable : shape.body.profitable shape.isFull config = .ok ()

theorem accepted_of_loopShape {config : UnrollConfig} {shape : LoopShape}
    (h : g.loopShape config loop = .ok shape) : g.Accepted config loop shape := by
  rw [loopShape] at h
  obtain ⟨p, hp, h⟩ := bind_eq_ok h
  obtain ⟨bottom, hbottom, h⟩ := bind_eq_ok h
  obtain ⟨⟨v, inverse⟩, hv, h⟩ := bind_eq_ok h
  obtain ⟨iterations, hiterations, h⟩ := bind_eq_ok h
  obtain ⟨body, hbody, h⟩ := bind_eq_ok h
  obtain ⟨_, hprofitable, h⟩ := bind_eq_ok h
  obtain rfl := Except.ok.inj h
  exact ⟨rfl, Refusal.rejecting_eq_ok_iff.1 hp, Refusal.rejecting_eq_ok_iff.1 hbottom, hv,
    hiterations, hbody, Refusal.rejecting_eq_ok_iff.1 hprofitable⟩

/-- The only block that leads to a member that is a pad is a member. -/
theorem before_mem (hg : g.Analyzed) (hnat : IsNaturalLoop g.flow entry loop)
    (hback : ∃ p ∈ loop.blocks, loop.header ∈ g.successors p) (hb : b ∈ loop.blocks)
    {before : BlockId} (hpad : g.IsPadAfter b before) : before ∈ loop.blocks := by
  obtain ⟨hreach, hedge⟩ := hg.edge_of_isPadAfter hpad
  by_cases hheader : b = loop.header
  · obtain ⟨p, hp, hph⟩ := hback
    have heq := hg.eq_of_isPadAfter hpad (hnat.reaches hp) (hheader ▸ hph)
    exact heq ▸ hp
  · exact hnat.closed before b hb hheader hreach (hg.wellFormed.edge_iff.2 hedge)

/-- The blocks from which a member is reached over pads are members. -/
theorem skipPads_mem (hg : g.Analyzed) (hnat : IsNaturalLoop g.flow entry loop)
    (hback : ∃ p ∈ loop.blocks, loop.header ∈ g.successors p) (fuel : Nat)
    (hb : b ∈ loop.blocks) : g.skipPads fuel b ∈ loop.blocks := by
  induction fuel generalizing b with
  | zero => exact hb
  | succ fuel ih =>
    rcases g.skipPads_succ fuel b with ⟨before, hpad, hskip, _⟩ | ⟨hskip, _⟩
    · rw [hskip]
      exact ih (before_mem hg hnat hback hb hpad)
    · rw [hskip]
      exact hb

/-- **The parts of an accepted loop.** -/
theorem loopParts_of_accepted {config : UnrollConfig} {shape : LoopShape} (hg : g.Analyzed)
    (hloop : loop ∈ g.loopForest.loops) (h : g.Accepted config loop shape) :
    g.LoopParts loop shape.preHeader shape.tail shape.next shape.inLoopSlot := by
  have hnat := hg.isNaturalLoop hloop
  have hlive := hg.wellFormed.isLive_of_reaches hnat.header_reaches
  obtain ⟨htail, hearly, hbranch, stay, hslot, hstay, hexit, hin, hout⟩ := loopTail_eq_ok h.bottom
  have hpre := preHeader_eq_ok h.preHeader
  have hpreds := fun p => hg.mem_predecessors_iff (c := p) hlive
  -- a block that leads back to the header over pads
  obtain ⟨p, hp, hdom, hskip⟩ : ∃ p ∈ g.predecessors loop.header,
      g.dominatorTree.dominates loop.header p = true ∧ g.skipPads g.blocks.size p = shape.tail := by
    rw [← mem_enteringBlocks, htail]
    exact List.mem_singleton_self _
  have hpmem : p ∈ loop.blocks := hnat.back p ((hpreds p).1 hp).2 (hg.dominates_iff.1 hdom)
  have hpheader : loop.header ∈ g.successors p := hg.wellFormed.edge_iff.1 ((hpreds p).1 hp).2
  -- a block that leads to the header from outside, looked through, is the pre-header
  have houtside : ∀ q, g.flow.Reaches entry q → loop.header ∈ g.successors q → q ∉ loop.blocks →
      q ∈ g.predecessors loop.header ∧ g.dominatorTree.dominates loop.header q = false := by
    intro q hq hedge hmem
    have hedge := hg.wellFormed.edge_iff.2 hedge
    refine ⟨(hpreds q).2 ⟨hq, hedge⟩, ?_⟩
    by_contra hdom
    exact hmem (hnat.back q hedge (hg.dominates_iff.1 (by simpa using hdom)))
  have hskipOut : ∀ q ∈ g.predecessors loop.header,
      g.dominatorTree.dominates loop.header q = false →
        g.skipPads g.blocks.size q = shape.preHeader := by
    intro q hq hdom
    have hmem := mem_enteringBlocks.2 ⟨q, hq, hdom, rfl⟩
    rw [hpre] at hmem
    simpa using hmem
  refine ⟨hnat, ?_, ?_, hbranch, hslot, ⟨stay, (hnat.contains_iff stay).1 hin, hstay⟩, hexit, ?_,
    ?_, ?_, ?_, p, hpmem, hpheader, hskip⟩
  · obtain ⟨q, hq, hqdom, _⟩ : ∃ q ∈ g.predecessors loop.header,
        g.dominatorTree.dominates loop.header q = false ∧
          g.skipPads g.blocks.size q = shape.preHeader := by
      rw [← mem_enteringBlocks, hpre]
      exact List.mem_singleton_self _
    intro heq
    have hdom := hg.dominates_iff.2 (Digraph.dominates_entry ((hpreds q).1 hq).1)
    rw [heq, hdom] at hqdom
    cases hqdom
  · exact hskip ▸ skipPads_mem hg hnat ⟨p, hpmem, hpheader⟩ _ hpmem
  · intro hmem
    have := (hnat.contains_iff shape.next).2 hmem
    simp [this] at hout
  · intro b hb hne t ht
    rw [earlyExit?, List.find?_eq_none] at hearly
    have := hearly b hb
    simp only [Bool.and_eq_true, bne_iff_ne, ne_eq, hne, not_false_eq_true, true_and,
      List.any_eq_true, Bool.not_eq_true', not_exists, not_and] at this
    exact (hnat.contains_iff t).1 (by simpa using this t ht)
  · intro q hq hedge hmem
    obtain ⟨hqpred, hqdom⟩ := houtside q hq hedge hmem
    rcases (g.padsBefore_chain g.blocks.size q).1 with hpad | heq
    · refine .inr (List.mem_flatMap.2 ⟨q, ?_, hpad⟩)
      simp [hqpred, hqdom]
    · exact .inl (heq.trans (hskipOut q hqpred hqdom))
  · intro b hb
    obtain ⟨q, hq, hbq⟩ := List.mem_flatMap.1 hb
    obtain ⟨hqpred, hqdom⟩ : q ∈ g.predecessors loop.header ∧
        g.dominatorTree.dominates loop.header q = false := by simpa using hq
    obtain ⟨before, hpad, hbefore⟩ := (g.padsBefore_chain g.blocks.size q).2 b hbq
    refine ⟨before, hpad, ?_⟩
    rcases hbefore with hbefore | hbefore
    · exact .inr (List.mem_flatMap.2 ⟨q, hq, hbefore⟩)
    · exact .inl (hbefore.trans (hskipOut q hqpred hqdom))

end Unroller.Graph
