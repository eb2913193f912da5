import Mathlib.Tactic
import Unroller.Proofs.Digraph.LoopForest
import Unroller.Proofs.Loop.Cloneable
import Unroller.Proofs.Loop.Pads

/-!
# One turn of a loop

The pads on the back edge only lead from the tail of an accepted loop back to its header.  Without
them the members make one turn, from the header to the tail.

* `turn`: the members that are no pads on the back edge.
* `Turn`: a turn begins at the header and ends at the tail, and every block of it lies in between.
* `LoopParts.notMem_of_avoids`, `LoopParts.avoids_of_edge`: where control is before it comes to the
  header.
* `turn_of_accepted`: the turn of an accepted loop is of this sort.
* `Unrollable`, `unrollable_of_accepted`: what copying the body of an accepted loop rests on.
-/

namespace Unroller.Graph

open Unroller.Digraph (IsNaturalLoop)

variable {g : Graph} {b c t tail : BlockId} {loop : NaturalLoop} {shape : LoopShape}
  {preHeader : BlockId} {config : UnrollConfig}

/-- The members of a loop but for the pads on the back edge. -/
def turn (g : Graph) (loop : NaturalLoop) : List BlockId :=
  loop.blocks.filter fun b => b ∉ g.backPads loop.header

theorem mem_turn : b ∈ g.turn loop ↔ b ∈ loop.blocks ∧ b ∉ g.backPads loop.header := by
  simp [turn]

/-- A step of a turn, which ends at the tail. -/
def TurnStep (g : Graph) (loop : NaturalLoop) (tail b t : BlockId) : Prop :=
  b ∈ g.turn loop ∧ b ≠ tail ∧ t ∈ g.successors b

/-- A turn begins at the header and ends at the tail. -/
structure Turn (g : Graph) (loop : NaturalLoop) (tail : BlockId) : Prop where
  header_mem : loop.header ∈ g.turn loop
  tail_mem : tail ∈ g.turn loop
  nodup : (g.turn loop).Nodup
  closed : ∀ b ∈ g.turn loop, b ≠ tail → ∀ t ∈ g.successors b, t ∈ g.turn loop ∧ t ≠ loop.header
  reached : ∀ b ∈ g.turn loop, Relation.ReflTransGen (g.TurnStep loop tail) loop.header b
  ends : ∀ b ∈ g.turn loop, Relation.ReflTransGen (g.TurnStep loop tail) b tail

/-! ## Before the header -/

section natural

variable (hp : g.LoopParts loop preHeader shape.tail shape.next shape.inLoopSlot)

include hp

/-- What control reaches before it comes to the header is outside the loop. -/
theorem LoopParts.notMem_of_avoids (hav : g.flow.Avoids loop.header entry b) :
    b ∉ loop.blocks :=
  fun hmem => (Digraph.dominates_iff.1 (hp.natural.dominated b hmem)).2 hav

/-- Control enters the loop from blocks that it reaches before it comes to the header. -/
theorem LoopParts.avoids_of_edge (hb : g.flow.Reaches entry b) (hout : b ∉ loop.blocks)
    (hedge : loop.header ∈ g.successors b) (hw : g.WellFormed) :
    g.flow.Avoids loop.header entry b := by
  by_contra hav
  exact hout (hp.natural.back b (hw.edge_iff.2 hedge) (Digraph.dominates_iff.2 ⟨hb, hav⟩))

end natural

/-! ## The turn of an accepted loop -/

section turn

variable (hs : g.Sound) (hg : g.Analyzed) (hloop : loop ∈ g.loopForest.loops)
  (ha : g.Accepted config loop shape)

include hs hg hloop ha

omit hs in
theorem header_mem_turn : loop.header ∈ g.turn loop := by
  have hp := loopParts_of_accepted hg hloop ha
  exact mem_turn.2 ⟨hp.natural.header_mem,
    header_notMem_backPads hg hp fun p => ha.skipPads_inside hg hloop⟩

theorem tail_mem_turn : shape.tail ∈ g.turn loop := by
  have hp := loopParts_of_accepted hg hloop ha
  exact mem_turn.2 ⟨hp.tail_mem,
    tail_notMem_backPads hs hg hp fun p => ha.skipPads_inside hg hloop⟩

omit hs in
/-- A turn goes on until it comes to the tail. -/
theorem closed_turn (hb : b ∈ g.turn loop) (hne : b ≠ shape.tail) (ht : t ∈ g.successors b) :
    t ∈ g.turn loop ∧ t ≠ loop.header := by
  have hp := loopParts_of_accepted hg hloop ha
  have hback := fun p => ha.skipPads_inside hg hloop (p := p)
  obtain ⟨hmem, hpads⟩ := mem_turn.1 hb
  refine ⟨mem_turn.2 ⟨hp.closed b hmem hne t ht, fun htpads => ?_⟩, ?_⟩
  · exact (predecessor_of_mem_backPads hg hp hback htpads (hp.natural.reaches hmem) ht).elim hpads
      hne
  · rintro rfl
    exact (mem_backPads_of_edge hg hp hback hmem ht).elim hpads hne

/-- Each block of a turn is reached from the header. -/
theorem reached_turn (hb : b ∈ g.turn loop) :
    Relation.ReflTransGen (g.TurnStep loop shape.tail) loop.header b := by
  have hp := loopParts_of_accepted hg hloop ha
  have hreach := hp.natural.reaches (mem_turn.1 hb).1
  -- along a walk from the entry, which can come into the turn at the header only
  refine hreach.induction
    (P := fun v => v ∈ g.turn loop →
      Relation.ReflTransGen (g.TurnStep loop shape.tail) loop.header v)
    (fun hmem => absurd (hp.natural.eq_header_of_entry_mem (mem_turn.1 hmem).1) hp.header_ne)
    ?_ hb
  intro x y hx hxy ih hy
  by_cases hheader : y = loop.header
  · rw [hheader]
  obtain ⟨hymem, hypads⟩ := mem_turn.1 hy
  have hsucc := hg.wellFormed.edge_iff.1 hxy
  have hxmem := hp.natural.closed x y hymem hheader hx hxy
  have hxpads : x ∉ g.backPads loop.header := fun hxpads =>
    (successor_of_mem_backPads hs hg hp hxpads hsucc).elim hypads hheader
  have hxtail : x ≠ shape.tail := by
    rintro rfl
    obtain ⟨slot, hslot⟩ := mem_successors_iff_successor?.1 hsucc
    rcases hp.tail_slot hg.wellFormed hslot with rfl | rfl
    · exact (stay_of_backPads hg hp hslot).elim hypads hheader
    · exact hp.next_notMem (Option.some.inj (hslot.symm.trans hp.exit) ▸ hymem)
  have hxturn := mem_turn.2 ⟨hxmem, hxpads⟩
  exact (ih hxturn).tail ⟨hxturn, hxtail, hsucc⟩

omit hs in
/-- A walk that starts in a turn comes to the tail before it leaves the turn. -/
theorem ends_of_walk {vs : List Nat} (hwalk : g.flow.Walk b c vs) (hb : b ∈ g.turn loop)
    (hc : c ∈ g.turn loop → c = shape.tail) :
    Relation.ReflTransGen (g.TurnStep loop shape.tail) b shape.tail := by
  induction hwalk with
  | single _ => rw [hc hb]
  | @cons v m c vs hedge _ ih =>
    by_cases hv : v = shape.tail
    · rw [hv]
    have hsucc := hg.wellFormed.edge_iff.1 hedge
    exact .head ⟨hb, hv, hsucc⟩ (ih (closed_turn hg hloop ha hb hv hsucc).1 hc)

/-- Each block of a turn leads to the tail. -/
theorem ends_turn (hb : b ∈ g.turn loop) :
    Relation.ReflTransGen (g.TurnStep loop shape.tail) b shape.tail := by
  have hp := loopParts_of_accepted hg hloop ha
  have hback := fun p => ha.skipPads_inside hg hloop (p := p)
  have hlisted := Digraph.isLoopOf_of_mem (hg.loops ▸ hloop)
  rcases (hlisted.mem_blocks b).1 (mem_turn.1 hb).1 with rfl | ⟨_, n, hn, hav⟩
  · exact reached_turn hs hg hloop ha (tail_mem_turn hs hg hloop ha)
  · -- the source of a back edge is the tail or a pad on the back edge
    obtain ⟨vs, hwalk, _⟩ := hav
    refine ends_of_walk hg hloop ha hwalk hb fun hturn => ?_
    obtain ⟨hnmem, hnpads⟩ := mem_turn.1 hturn
    exact (mem_backPads_of_edge hg hp hback hnmem
      (hg.wellFormed.edge_iff.1 hn.2.1)).resolve_left hnpads

/-- **The turn of an accepted loop** leads from its header to its tail. -/
theorem turn_of_accepted : g.Turn loop shape.tail where
  header_mem := header_mem_turn hg hloop ha
  tail_mem := tail_mem_turn hs hg hloop ha
  nodup := (Digraph.isLoopOf_of_mem (hg.loops ▸ hloop)).nodup_blocks.filter _
  closed := fun _ hb hne _ => closed_turn hg hloop ha hb hne
  reached := fun _ => reached_turn hs hg hloop ha
  ends := fun _ => ends_turn hs hg hloop ha

end turn

/-- A loop whose body can be copied turn by turn. -/
structure Unrollable (g : Graph) (loop : NaturalLoop) (shape : LoopShape) : Prop where
  parts : g.LoopParts loop shape.preHeader shape.tail shape.next shape.inLoopSlot
  header : shape.header = loop.header
  turn : g.Turn loop shape.tail
  region : Cloning.Region g (g.turn loop) shape.tail

theorem Unrollable.lt_size (hu : g.Unrollable loop shape) (hb : b ∈ g.turn loop) :
    b < g.blocks.size := by
  obtain ⟨block, hblock⟩ := isLive_iff.1 (hu.region.live b hb)
  exact lt_size_of_block? hblock

/-- **An accepted loop** is of this sort. -/
theorem unrollable_of_accepted (hs : g.Sound) (hg : g.Analyzed) (hloop : loop ∈ g.loopForest.loops)
    (ha : g.Accepted config loop shape) : g.Unrollable loop shape := by
  have hturn := turn_of_accepted hs hg hloop ha
  have hregion := region_of_accepted hs hg hloop ha
  refine ⟨loopParts_of_accepted hg hloop ha, ha.header, hturn, hg.wellFormed, ?_, ?_, ?_⟩
  · exact fun b hb => hregion.live b (mem_turn.1 hb).1
  · exact fun b hb hne t ht => (hturn.closed b hb hne t ht).1
  · exact fun b hb => hregion.cloneable b (mem_turn.1 hb).1

end Unroller.Graph
