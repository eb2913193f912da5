import Mathlib.Tactic
import Unroller.Proofs.Loop.Flattening
import Unroller.Proofs.Loop.Layout
import Unroller.Proofs.Loop.Lockstep
import Unroller.Proofs.Loop.Ways

/-!
# Partial unrolling

A loop whose trip count is not known stays a loop: its laps follow one another, each may leave the
loop, and the last one leads back to the first.  As it now leaves at several places, it is not
accepted again.

* `Course.isBackEdge_iff`, `Course.mem_blocks_iff`: the one back edge, and the members.
* `Course.chainEnds`: the chains of pads that lead to the loop end where they did, or at the block
  after the loop.
* `Course.loopShape_eq_error`: the loop is rejected for its exits.
* `Rolled`, `RolledLoop`: the laps of partial unrolling, and the loop they make.
* `unrollLoop_rolls`: what partial unrolling leaves; `unrollLoop_halfwayOpen`: not so if a forest
  was kept while the graph was still being built.
-/

namespace Unroller

open Unroller.Graph Machine Relation

variable {g k : Graph} {loop l : NaturalLoop} {shape : LoopShape} {config : UnrollConfig}
  {b c d p t x y : BlockId} {n i j : Nat} {lap : Nat → BlockId → BlockId} {removed : List BlockId}

/-! ## The blocks before a loop -/

namespace Graph

/-- A chain of pads ends at one block. -/
theorem ChainEnds.unique (h : g.ChainEnds b c) (h' : g.ChainEnds b d) : c = d := by
  have hunique : Relator.RightUnique g.IsPadAfter := by
    rintro x y z ⟨block, hb, _, hy⟩ ⟨block', hb', _, hz⟩
    obtain rfl := Option.some.inj (hb.symm.trans hb')
    simpa [hy] using hz
  rcases ReflTransGen.total_of_right_unique hunique h.1 h'.1 with hcd | hdc
  · rcases ReflTransGen.cases_head hcd with heq | ⟨q, hq, _⟩
    · exact heq
    · exact absurd hq (h.2 q)
  · rcases ReflTransGen.cases_head hdc with heq | ⟨q, hq, _⟩
    · exact heq.symm
    · exact absurd hq (h'.2 q)

/-- If all blocks that lead to a header from one side come after one block, that one is found. -/
theorem enteringBlocks_eq_singleton {header : BlockId} {inLoop : Bool}
    (hsome : ∃ p ∈ g.predecessors header, g.dominatorTree.dominates header p = inLoop)
    (hall : ∀ p ∈ g.predecessors header, g.dominatorTree.dominates header p = inLoop →
      g.skipPads g.blocks.size p = c) : g.enteringBlocks header inLoop = [c] := by
  refine List.perm_singleton.1 ((List.perm_ext_iff_of_nodup
    (Digraph.nodup_eraseDups _) (List.nodup_singleton c)).2 fun b => ?_)
  rw [List.mem_singleton]
  refine mem_enteringBlocks.trans ⟨?_, ?_⟩
  · rintro ⟨p, hp, hdom, rfl⟩
    exact hall p hp hdom
  · rintro rfl
    obtain ⟨p, hp, hdom⟩ := hsome
    exact ⟨p, hp, hdom, hall p hp hdom⟩

end Graph

namespace Course

variable (hu : g.Unrollable loop shape) (hc : Course g loop shape n lap k)

include hu hc

/-! ## The loop -/

/-- What control reaches from outside before it comes to the header is outside. -/
theorem outside_of_avoids (hx : g.Outside loop x) (hav : k.flow.Avoids loop.header x y) :
    g.Outside loop y := by
  obtain ⟨vs, hwalk, hvs⟩ := hav
  induction hwalk with
  | single _ => exact hx
  | @cons v w y vs hedge hwalk ih =>
    have hvs' : loop.header ∉ vs := fun hmem => hvs (List.mem_cons_of_mem _ hmem)
    obtain ⟨slot, hslot⟩ := mem_successors_iff_successor?.1 (hc.wellFormed.edge_iff.1 hedge)
    rw [(hc.outside v hx).successor] at hslot
    rcases hu.outside_or_header hx (mem_successors_of_successor? hslot) with hw | rfl
    · exact ih hw hvs'
    · exact absurd hwalk.left_mem hvs'

/-- The header dominates all laps. -/
theorem header_dominates (hi : i < n) (hb : b ∈ g.turn loop) :
    k.flow.Dominates entry loop.header (lap i b) :=
  Digraph.dominates_iff.2 ⟨reaches_lap hu hc hi hb,
    fun hav => hc.away i hi b hb (outside_of_avoids hu hc hu.outside_entry hav)⟩

/-- **The one back edge** comes from the tail of the last lap. -/
theorem isBackEdge_iff (hpart : shape.isFull = false) :
    k.flow.IsBackEdge entry p loop.header ↔ p = lap (n - 1) shape.tail := by
  have hheader := hu.turn.header_mem
  have hlast : n - 1 < n := Nat.sub_one_lt hc.pos.ne'
  constructor
  · rintro ⟨hreach, hedge, hdom⟩
    have hstep := step_of_edge hc (place_of_reaches hu hc hreach) hedge
    rw [← hc.first loop.header] at hstep
    rcases step_to_header hu hc hc.pos hstep with ⟨_, hout, hsucc⟩ | ⟨i, hi, _⟩ | ⟨_, _, heq⟩
    · have hav := avoids_of_outside hu hc (hc.away 0 hc.pos _ hheader) hout hsucc
      rw [hc.first] at hav
      exact absurd hav (Digraph.dominates_iff.1 hdom).2
    · exact absurd hi (Nat.succ_ne_zero i).symm
    · exact heq
  · rintro rfl
    refine ⟨reaches_lap hu hc hlast hu.turn.tail_mem, ?_,
      header_dominates hu hc hlast hu.turn.tail_mem⟩
    have hedge := edge_of_step hc (.onward hlast)
    rwa [Nat.sub_add_cancel hc.pos, LoopShape.entrance, if_neg (Nat.lt_irrefl n), hpart,
      if_neg Bool.false_ne_true, hu.header] at hedge

/-- **The members** of the loop are the blocks of the laps. -/
theorem mem_blocks_iff (hpart : shape.isFull = false) (hl : k.flow.IsLoopOf entry l)
    (hheader : l.header = loop.header) : x ∈ l.blocks ↔ OnCourse g loop n lap x := by
  have hmem := hu.turn.header_mem
  have hlast : n - 1 < n := Nat.sub_one_lt hc.pos.ne'
  rw [hl.mem_blocks, hheader]
  simp only [isBackEdge_iff hu hc hpart]
  constructor
  · rintro (rfl | ⟨hreach, p, rfl, hav⟩)
    · exact ⟨0, hc.pos, _, hmem, (hc.first _).symm⟩
    · refine (place_of_reaches hu hc hreach).resolve_left fun hout => ?_
      exact hc.away _ hlast _ hu.turn.tail_mem (outside_of_avoids hu hc hout hav)
  · rintro ⟨i, hi, b, hb, rfl⟩
    by_cases heq : lap i b = loop.header
    · exact .inl heq
    · refine .inr ⟨reaches_lap hu hc hi hb, _, rfl, ?_⟩
      rw [← hc.first loop.header] at heq ⊢
      exact avoids_laps hu hc (Nat.le_sub_one_of_lt hi) hlast hc.pos
        (fun l hlt _ => Nat.ne_zero_of_lt hlt) hb heq

/-- A lap is left by the exit slot of its tail only. -/
theorem leaving_lap (hon : OnCourse g loop n lap x) {slot : Nat} (ht : k.successor? x slot = some t)
    (hout : ¬ OnCourse g loop n lap t) (hpart : shape.isFull = false) :
    ∃ i < n, x = lap i shape.tail ∧ slot = shape.exitSlot ∧ t = shape.next := by
  obtain ⟨i, hi, b, hb, rfl⟩ := hon
  have hne : b = shape.tail := by
    by_contra hne
    rw [(hc.each i hi).successor b hb hne] at ht
    obtain ⟨c, hc, rfl⟩ := Option.map_eq_some_iff.1 ht
    exact hout ⟨i, hi, c, (hu.turn.closed b hb hne c (mem_successors_of_successor? hc)).1, rfl⟩
  subst hne
  rcases tail_cases hc hi ht with rfl | ⟨_, hslot, hnext⟩
  · refine absurd ?_ hout
    rcases entrance_cases hu hc (i := i + 1) with ⟨hlt, heq⟩ | ⟨_, hfull, _⟩ | ⟨_, _, heq⟩
    · exact ⟨i + 1, hlt, _, hu.turn.header_mem, heq⟩
    · simp [hpart] at hfull
    · exact ⟨0, hc.pos, _, hu.turn.header_mem, heq⟩
  · exact ⟨i, hi, rfl, hslot, hnext⟩

theorem next_notOnCourse : ¬ OnCourse g loop n lap shape.next := by
  rintro ⟨i, hi, b, hb, heq⟩
  exact hc.away i hi b hb (heq ▸ hu.outside_next)

/-! ## Pads before the loop -/

/-- Outside the same blocks lead to a block as before, but for the one after the loop. -/
theorem leads_iff (hx : g.Outside loop x) (hne : x ≠ shape.next) :
    k.flow.Reaches entry y ∧ x ∈ k.successors y ↔ g.flow.Reaches entry y ∧ x ∈ g.successors y := by
  constructor
  · rintro ⟨hreach, hedge⟩
    have hstep := step_of_edge hc (place_of_reaches hu hc hreach) (hc.wellFormed.edge_iff.2 hedge)
    cases hstep with
    | outside hy ht => exact ⟨hy.1, ht⟩
    | @within i b t hi hb hbne ht =>
      exact absurd hx (hc.away i hi t (hu.turn.closed b hb hbne t ht).1)
    | @onward i hi =>
      rcases entrance_cases hu hc (i := i + 1) with ⟨hlt, heq⟩ | ⟨_, _, heq⟩ | ⟨_, _, heq⟩
      · exact absurd (heq ▸ hx) (hc.away _ hlt _ hu.turn.header_mem)
      · exact absurd heq hne
      · exact absurd (heq ▸ hx) (hc.away _ hc.pos _ hu.turn.header_mem)
    | leave _ _ => exact absurd rfl hne
  · rintro ⟨hreach, hedge⟩
    have hy : g.Outside loop y := ⟨hreach, fun hin => hne (hu.leaving hin hedge hx.2).2⟩
    exact ⟨reaches_outside hu hc hy,
      hc.wellFormed.edge_iff.1 (edge_of_step hc (.outside hy hedge))⟩

/-- Outside the same pads are looked through, but for the block after the loop. -/
theorem isPadAfter_iff (hg : g.Analyzed) (hk : k.Analyzed) (hx : g.Outside loop x)
    (hne : x ≠ shape.next) : k.IsPadAfter x y ↔ g.IsPadAfter x y := by
  rw [hk.isPadAfter_iff, hg.isPadAfter_iff, (hc.outside x hx).isPad_iff]
  simp only [leads_iff hu hc hx hne]

/-- Several laps lead to the block after the loop. -/
theorem not_isPadAfter_next (hk : k.Analyzed) (hpart : shape.isFull = false) (hn : 1 < n)
    (q : BlockId) : ¬ k.IsPadAfter shape.next q := by
  have htail := hu.turn.tail_mem
  have hto : ∀ {i}, i < n → shape.next ∈ k.successors (lap i shape.tail) := fun hi =>
    hc.wellFormed.edge_iff.1 (edge_of_step hc (.leave hi hpart))
  refine hk.not_isPadAfter_of_ne (reaches_lap hu hc hc.pos htail) (hto hc.pos)
    (reaches_lap hu hc hn htail) (hto hn) (fun heq => ?_) q
  exact absurd (hc.apart 0 hc.pos 1 hn _ htail _ htail heq).1 Nat.zero_ne_one

/-- The header is entered from outside and from the last lap. -/
theorem not_isPadAfter_header (hk : k.Analyzed) (hpart : shape.isFull = false) (q : BlockId) :
    ¬ k.IsPadAfter loop.header q := by
  have hlast : n - 1 < n := Nat.sub_one_lt hc.pos.ne'
  obtain ⟨p, hp, hedge⟩ := hu.exists_outside
  have hback := (isBackEdge_iff hu hc hpart).2 rfl
  refine hk.not_isPadAfter_of_ne (reaches_outside hu hc hp)
    (hc.wellFormed.edge_iff.1 (edge_of_step hc (.outside hp hedge))) hback.1
    (hc.wellFormed.edge_iff.1 hback.2.1) (fun heq => ?_) q
  exact hc.away _ hlast _ hu.turn.tail_mem (heq ▸ hp)

/-- **Chains of pads outside** end where they did.  If that is in the loop, which takes a pad at the
entry, they end at the block after the loop. -/
theorem chainEnds (hg : g.Analyzed) (hk : k.Analyzed) (hpart : shape.isFull = false) (hn : 1 < n)
    (hx : g.Outside loop x) (hchain : g.ChainEnds x c) :
    k.ChainEnds x (if c ∈ loop.blocks then shape.next else c) := by
  obtain ⟨hway, hend⟩ := hchain
  induction hway using ReflTransGen.head_induction_on with
  | refl =>
    rw [if_neg hx.2]
    refine ⟨.refl, fun q hq => ?_⟩
    by_cases hne : c = shape.next
    · exact not_isPadAfter_next hu hc hk hpart hn q (hne ▸ hq)
    · exact hend q ((isPadAfter_iff hu hc hg hk hx hne).1 hq)
  | @head x y hpad hway ih =>
    obtain ⟨hreach, hedge⟩ := hg.edge_of_isPadAfter hpad
    by_cases hin : y ∈ loop.blocks
    · -- the chain comes out of the loop
      obtain ⟨_, rfl⟩ := hu.leaving hin hedge hx.2
      rw [if_pos (hu.parts.mem_of_reflTransGen hg hin hway)]
      exact ⟨.refl, not_isPadAfter_next hu hc hk hpart hn⟩
    · obtain ⟨hrest, hlast⟩ := ih ⟨hreach, hin⟩
      have hne : x ≠ shape.next := by
        rintro rfl
        have htail := hg.eq_of_isPadAfter hpad (hu.parts.natural.reaches hu.parts.tail_mem)
          (mem_successors_of_successor? hu.parts.exit)
        exact hin (htail ▸ hu.parts.tail_mem)
      exact ⟨.head ((isPadAfter_iff hu hc hg hk hx hne).2 hpad) hrest, hlast⟩

/-! ## The shape of the loop -/

section shape

variable (hg : g.Analyzed) (hks : k.Sound) (hk : k.Analyzed) (hpart : shape.isFull = false)
  (hn : 1 < n)
  (hheader : l.header = loop.header)

include hk in
theorem mem_predecessors_header :
    p ∈ k.predecessors loop.header ↔ k.flow.Reaches entry p ∧ k.flow.Edge p loop.header := by
  have hlive := hk.wellFormed.isLive_of_reaches (reaches_lap hu hc hc.pos hu.turn.header_mem)
  rw [hc.first] at hlive
  exact hk.mem_predecessors_iff hlive

include hk in
/-- What leads to the header from outside is not dominated by it. -/
theorem not_dominates_outside (hp : g.Outside loop p) (hedge : loop.header ∈ g.successors p) :
    k.dominatorTree.dominates loop.header p = false := by
  have hav := avoids_of_outside hu hc (hc.away 0 hc.pos _ hu.turn.header_mem) hp hedge
  rw [hc.first] at hav
  by_contra hdom
  have hdom := hk.dominates_iff.1 (by simpa using hdom)
  exact (Digraph.dominates_iff.1 hdom).2 hav

include hg hks hk hpart hn in
/-- From a block that leads to the header from outside the end of its chain of pads is found. -/
theorem skipPads_outside (hp : g.Outside loop p) (hedge : loop.header ∈ g.successors p)
    (hchain : g.ChainEnds p c) :
    k.skipPads k.blocks.size p = if c ∈ loop.blocks then shape.next else c := by
  have hsucc := hk.wellFormed.edge_iff.1 (edge_of_step hc (.outside hp hedge))
  refine ChainEnds.unique ⟨k.reflTransGen_skipPads _ p, ?_⟩
    (chainEnds hu hc hg hk hpart hn hp hchain)
  exact not_isPadAfter_skipPads hks hk hsucc (not_isPadAfter_header hu hc hk hpart)

include hks hk hpart in
/-- The last lap ends in a block with two successors, which is no pad. -/
theorem skipPads_last (fuel : Nat) :
    k.skipPads fuel (lap (n - 1) shape.tail) = lap (n - 1) shape.tail := by
  have hlast : n - 1 < n := Nat.sub_one_lt hc.pos.ne'
  have hback := (isBackEdge_iff hu hc hpart).2 rfl
  rcases ReflTransGen.cases_head (k.reflTransGen_skipPads fuel (lap (n - 1) shape.tail)) with
    heq | ⟨q, hq, _⟩
  · exact heq.symm
  · have heq := hq.isPad.successor_unique hks (hk.wellFormed.edge_iff.1 hback.2.1)
      (hk.wellFormed.edge_iff.1 (edge_of_step hc (.leave hlast hpart)))
    exact absurd (heq ▸ hu.parts.natural.header_mem) hu.parts.next_notMem

include hpart hn hheader in
/-- Other laps than the last one can be left. -/
theorem exists_earlyExit (hl : k.flow.IsLoopOf entry l) :
    ∃ b, k.earlyExit? l (lap (n - 1) shape.tail) = some b := by
  have hlast : n - 1 < n := Nat.sub_one_lt hc.pos.ne'
  have htail := hu.turn.tail_mem
  have hmem : ∀ {x}, x ∈ l.blocks ↔ OnCourse g loop n lap x :=
    mem_blocks_iff hu hc hpart hl hheader
  apply Option.isSome_iff_exists.1
  rw [earlyExit?, List.find?_isSome]
  refine ⟨lap 0 shape.tail, hmem.2 ⟨0, hc.pos, _, htail, rfl⟩, ?_⟩
  rw [Bool.and_eq_true, bne_iff_ne, List.any_eq_true]
  refine ⟨fun heq => ?_, shape.next, ?_, ?_⟩
  · have := (hc.apart 0 hc.pos _ hlast _ htail _ htail heq).1
    omega
  · exact hc.wellFormed.edge_iff.1 (edge_of_step hc (.leave hc.pos hpart))
  · rw [Bool.not_eq_true', Bool.eq_false_iff, ne_eq, hl.contains_iff, hmem]
    exact next_notOnCourse hu hc

include hks hk hpart hn hheader

include hg in
/-- The loop has a pre-header, for the chains of pads before it still end at one block. -/
theorem exists_preHeader
    (hchain : ∀ p, g.Outside loop p → loop.header ∈ g.successors p → g.ChainEnds p c) :
    ∃ e, k.preHeader l = .ok e := by
  obtain ⟨p, hp, hedge⟩ := hu.exists_outside
  have hfound : k.enteringBlocks l.header false =
      [if c ∈ loop.blocks then shape.next else c] := by
    rw [hheader]
    refine enteringBlocks_eq_singleton ⟨p, ?_, not_dominates_outside hu hc hk hp hedge⟩ ?_
    · exact (mem_predecessors_header hu hc hk).2
        ⟨reaches_outside hu hc hp, edge_of_step hc (.outside hp hedge)⟩
    · intro q hq hdom
      obtain ⟨hreach, hedge⟩ := (mem_predecessors_header hu hc hk).1 hq
      have hq : g.Outside loop q := by
        refine (place_of_reaches hu hc hreach).resolve_right ?_
        rintro ⟨i, hi, b, hb, rfl⟩
        have := hk.dominates_iff.2 (header_dominates hu hc hi hb)
        simp [hdom] at this
      obtain ⟨slot, hslot⟩ := mem_successors_iff_successor?.1 (hk.wellFormed.edge_iff.1 hedge)
      rw [(hc.outside q hq).successor] at hslot
      have hsucc := mem_successors_of_successor? hslot
      exact skipPads_outside hu hc hg hks hk hpart hn hq hsucc (hchain q hq hsucc)
  exact ⟨_, by rw [preHeader, hfound]⟩

/-- The tail of the last lap is found, and an exit before it. -/
theorem loopTail_eq_error (hl : k.flow.IsLoopOf entry l) :
    ∃ b, k.loopTail l = .error (.multipleExits b) := by
  have hback := (isBackEdge_iff hu hc hpart).2 rfl
  have hfound : k.enteringBlocks l.header true = [lap (n - 1) shape.tail] := by
    rw [hheader]
    refine enteringBlocks_eq_singleton ⟨_, ?_, hk.dominates_iff.2 hback.2.2⟩ fun q hq hdom => ?_
    · exact (mem_predecessors_header hu hc hk).2 ⟨hback.1, hback.2.1⟩
    · obtain ⟨hreach, hedge⟩ := (mem_predecessors_header hu hc hk).1 hq
      rw [(isBackEdge_iff hu hc hpart).1 ⟨hreach, hedge, hk.dominates_iff.1 hdom⟩]
      exact skipPads_last hu hc hks hk hpart _
  obtain ⟨b, hb⟩ := exists_earlyExit hu hc hpart hn hheader hl
  exact ⟨b, by rw [loopTail, hfound]; simp [hb]⟩

include hg in
/-- **The loop is rejected** because of its exits, whatever the settings. -/
theorem loopShape_eq_error (hl : k.flow.IsLoopOf entry l)
    (hchain : ∀ p, g.Outside loop p → loop.header ∈ g.successors p → g.ChainEnds p c)
    (config : UnrollConfig) :
    ∃ b, k.loopShape config l = .error (.rejected (.multipleExits b)) := by
  obtain ⟨e, he⟩ := exists_preHeader hu hc hg hks hk hpart hn hheader hchain
  obtain ⟨b, hb⟩ := loopTail_eq_error hu hc hks hk hpart hn hheader hl
  exact ⟨b, by simp only [Graph.loopShape, he, hb]; rfl⟩

end shape

end Course

/-! ## Partial unrolling -/

/-- In the graph `k` the loop has `count` laps, the first of them on its own blocks.  Each goes on
to the next one, the last to the first, and each may leave the loop. -/
structure Rolled (g : Graph) (loop : NaturalLoop) (shape : LoopShape) (count : Nat)
    (lap : Nat → BlockId → BlockId) (k : Graph) : Prop
    extends Repeated g loop shape count lap k where
  visit_tail : ∀ i < count, ∀ store,
    Machine.visit k (lap i shape.tail) store = Machine.visit g shape.tail store
  onward : ∀ i < count, k.successor? (lap i shape.tail) shape.inLoopSlot =
    some (if i + 1 < count then lap (i + 1) shape.header else shape.header)
  exit : ∀ i < count, k.successor? (lap i shape.tail) shape.exitSlot = some shape.next

/-- The loop `l` of `k` is made of `count` laps: the tail of the last leads back, all tails lead
out, and it will not be accepted again. -/
structure RolledLoop (g : Graph) (loop : NaturalLoop) (shape : LoopShape) (count : Nat)
    (lap : Nat → BlockId → BlockId) (k : Graph) (l : NaturalLoop) : Prop where
  only : k.loopForest.loops.filter (fun m => m.header == shape.header) = [l]
  mem_blocks : ∀ v, v ∈ l.blocks ↔ ∃ i < count, ∃ b ∈ g.turn loop, v = lap i b
  sources : l.sources = [lap (count - 1) shape.tail]
  leaving : ∀ v ∈ l.blocks, ∀ slot t, k.successor? v slot = some t → t ∉ l.blocks →
    ∃ i < count, v = lap i shape.tail ∧ slot = shape.exitSlot ∧ t = shape.next
  next_notMem : shape.next ∉ l.blocks
  rejected : ∀ config, ∃ b, k.loopShape config l = .error (.rejected (.multipleExits b))

/-- A loop is only accepted for partial unrolling if there is a copy to make. -/
theorem one_lt_partialCopies {stats : BodyStats}
    (h : stats.profitable false config = .ok ()) : 1 < config.partialCopies := by
  rw [BodyStats.profitable] at h
  split at h
  · cases h
  · rename_i hno
    simp only [Bool.not_false, Bool.true_and, Bool.or_eq_true, decide_eq_true_eq, not_or] at hno
    omega

namespace LaidOut

variable {count : Nat} (hl : LaidOut g loop shape count lap k) (hpart : shape.isFull = false)

include hl hpart

theorem rolled : Rolled g loop shape count lap k where
  toRepeated := hl.toRepeated
  visit_tail := fun i hi => (hl.course.each i hi).tail.visit_part hpart
  onward := by
    intro i hi
    rw [(hl.course.each i hi).tail.stay hpart]
    simp [LoopShape.entrance, hpart]
  exit := fun i hi => (hl.course.each i hi).tail.exit hpart

/-- **The one loop of the laps.** -/
theorem exists_rolledLoop (hu : g.Unrollable loop shape) (hg : g.Analyzed) (hcount : 1 < count)
    (hchain : ∀ p, g.Outside loop p → loop.header ∈ g.successors p → g.ChainEnds p c) :
    ∃ l, RolledLoop g loop shape count lap k l := by
  have hc := hl.course
  obtain ⟨l, hmem, hheader, honly⟩ :=
    Digraph.exists_filter_header_eq ((hc.isBackEdge_iff hu hpart).2 rfl)
  have hlisted := Digraph.isLoopOf_of_mem hmem
  have hblocks : ∀ {v}, v ∈ l.blocks ↔ OnCourse g loop count lap v :=
    hc.mem_blocks_iff hu hpart hlisted hheader
  refine ⟨l, ?_, fun v => hblocks, ?_, ?_, ?_, ?_⟩
  · rw [hl.analyzed.loops, hu.header]
    exact honly
  · refine List.perm_singleton.1 ((List.perm_ext_iff_of_nodup hlisted.nodup_sources
      (List.nodup_singleton _)).2 fun p => ?_)
    rw [hlisted.mem_sources, hheader, hc.isBackEdge_iff hu hpart, List.mem_singleton]
  · exact fun v hv slot t ht hout =>
      hc.leaving_lap hu (hblocks.1 hv) ht (fun hon => hout (hblocks.2 hon)) hpart
  · exact fun hnext => hc.next_notOnCourse hu (hblocks.1 hnext)
  · exact hc.loopShape_eq_error hu hg hl.sound hl.analyzed hpart hcount hheader hlisted hchain

end LaidOut

/-- **Partial unrolling leaves one loop with several exits, which is never unrolled again.**  In a
finished graph whose records have single owners, an accepted loop of unknown trip count becomes a
loop of as many laps as copies are asked for.  Its header heads one loop, made of the blocks of the
laps; the pads on the back edge are no longer among them.  The only back edge comes from the tail of
the last lap; the loop is left by the exit slots of the tails alone, and all lead to the block after
the loop; and it is rejected for its exits under any settings.  That the graph keeps no analysis but
its own is needed here as well. -/
theorem unrollLoop_rolls (hg : Finished g) (howner : g.SingleOwner)
    (hloop : loop ∈ g.loopForest.loops) (hshape : g.loopShape config loop = .ok shape)
    (hunknown : shape.iterations = none) :
    (∀ b, b ∈ g.backPads loop.header ↔ b ∈ loop.blocks ∧
      TransGen (fun c d => g.IsPad c ∧ d ∈ g.successors c) b loop.header) ∧
    ∃ removed k lap l, Graph.unrollLoop config shape g = .ok removed k ∧
      Rolled g loop shape config.partialCopies lap k ∧
      RolledLoop g loop shape config.partialCopies lap k l := by
  obtain ⟨hs, hanalyzed, _⟩ := hg.sound_analyzed
  have ha := accepted_of_loopShape hshape
  have hu := unrollable_of_accepted hs hanalyzed hloop ha
  have hpart : shape.isFull = false := by simp [LoopShape.isFull, hunknown]
  have hcopies := one_lt_partialCopies (hpart ▸ ha.profitable)
  have hlaps : shape.extraCopies config + 1 = config.partialCopies := by
    rw [LoopShape.extraCopies, hunknown]
    exact Nat.sub_add_cancel hcopies.le
  obtain ⟨removed, k, lap, hok, hl⟩ := unrollLoop_laidOut hg howner hloop ha hlaps
  -- all chains of pads before the loop end at its pre-header
  have hchain : ∀ p, g.Outside loop p → loop.header ∈ g.successors p →
      g.ChainEnds p shape.preHeader := fun p hp hedge =>
    (ha.entering hs hanalyzed hloop hp.1 hp.2 hedge hu.parts.natural.header_mem).2
  obtain ⟨l, hrolled⟩ := hl.exists_rolledLoop hpart hu hanalyzed hcopies hchain
  refine ⟨fun b => ?_, removed, k, lap, l, hok, hl.rolled hpart, hrolled⟩
  exact mem_backPads_iff hs hanalyzed hu.parts fun p => ha.skipPads_inside hanalyzed hloop

theorem unrollLoop_rolls_openLoop :
    ∃ removed k lap l, Graph.unrollLoop {} openShape
        (Builder.countingLoop false).graph.threadLocals = .ok removed k ∧
      Rolled (Builder.countingLoop false).graph.threadLocals countingBody openShape 2 lap k ∧
      RolledLoop (Builder.countingLoop false).graph.threadLocals countingBody openShape 2
        lap k l := by
  have howner : (Builder.countingLoop false).graph.threadLocals.SingleOwner := by decide +kernel
  exact (unrollLoop_rolls (finished_countingLoop false) howner (countingBody_mem false)
    (loopShape_of_accepted accepted_openLoop) rfl).2

/-- The shape found for the loop kept by the builder of `halfwayLoop`, with an unknown bound. -/
def halfwayOpen : LoopShape where
  header := 0
  preHeader := 2
  tail := 0
  next := 1
  inLoopSlot := 0
  inverse := false
  induction := ⟨0, 2, .arithAdd, 1, .compareLess, .constant 0, .node 4⟩
  iterations := none
  body := { blocks := 1, material := 7, numeric := 2, localAccesses := 3 }

theorem accepted_halfwayOpen :
    (Builder.halfwayLoop false).graph.threadLocals.Accepted {} halfwayBody halfwayOpen where
  header := rfl
  preHeader := by cbv
  bottom := by cbv
  induction := by decide +kernel
  iterations := by cbv
  body := by decide +kernel
  profitable := by decide +kernel

/-- **There can be more back edges**, if the builder was asked for the loops while the graph was
growing: the block that closes the loop around leads back as well, to the same header. -/
theorem unrollLoop_halfwayOpen :
    (Builder.halfwayLoop false).Made ∧
      (Builder.halfwayLoop false).finish = .ok (Builder.halfwayLoop false).graph.threadLocals ∧
      (Builder.halfwayLoop false).graph.threadLocals.SingleOwner ∧
      halfwayBody ∈ (Builder.halfwayLoop false).graph.threadLocals.loopForest.loops ∧
      (Builder.halfwayLoop false).graph.threadLocals.loopShape {} halfwayBody = .ok halfwayOpen ∧
      halfwayOpen.iterations = none ∧
      ∃ removed k l,
        Graph.unrollLoop {} halfwayOpen (Builder.halfwayLoop false).graph.threadLocals =
          .ok removed k ∧ k.loopForest.loops = [l] ∧ l.header = halfwayOpen.header ∧
          l.sources = [3, 2] := by
  refine ⟨Builder.made_halfwayLoop false, Builder.finish_halfwayLoop false, by decide +kernel, ?_,
    loopShape_of_accepted accepted_halfwayOpen, rfl, ?_⟩
  · simp [loops_halfwayLoop]
  · have hok : Graph.unrollLoop {} halfwayOpen (Builder.halfwayLoop false).graph.threadLocals =
        .ok [] (finalState (Graph.unrollLoop {} halfwayOpen
          (Builder.halfwayLoop false).graph.threadLocals)) := by cbv
    have hforest : (finalState (Graph.unrollLoop {} halfwayOpen
        (Builder.halfwayLoop false).graph.threadLocals)).loopForest.loops.map
          (fun l => (l.header, l.sources)) = [(halfwayOpen.header, [3, 2])] := by cbv
    obtain ⟨l, hl, hpair⟩ := List.map_eq_singleton_iff.1 hforest
    exact ⟨[], _, l, hok, hl, congrArg Prod.fst hpair, congrArg Prod.snd hpair⟩

end Unroller
