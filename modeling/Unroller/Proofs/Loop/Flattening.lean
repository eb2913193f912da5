import Mathlib.Tactic
import Unroller.Proofs.Loop.Entries
import Unroller.Proofs.Loop.Layout

/-!
# Full unrolling

A loop whose trip count is known goes away: its turns stand in a row, each ends in a jump to the
next one, and the last in a jump to the block after the loop.

* `Course.not_isBackEdge`: nothing leads back to the header of a lap.
* `Flattened`: the row, the blocks added and removed, and what stays as it was; `LaidOut.flattened`:
  the laps of full unrolling are such a row.
* `unrollLoop_flattens`: so full unrolling leaves one.
* `unrollLoop_halfwayLoop`: not so if a forest was kept while the graph was still being built.
-/

namespace Unroller

open Unroller.Graph Machine

variable {g k : Graph} {loop : NaturalLoop} {shape : LoopShape} {config : UnrollConfig}
  {b c : BlockId} {n i j : Nat} {lap : Nat → BlockId → BlockId} {removed : List BlockId}

/-- **Nothing leads back to a lap** in full unrolling: control has passed the header of a lap only
after the laps before it. -/
theorem Course.not_isBackEdge (hu : g.Unrollable loop shape) (hc : Course g loop shape n lap k)
    (hfull : shape.isFull = true) (hj : j < n) :
    ¬ k.flow.IsBackEdge entry b (lap j loop.header) := by
  have hheader := hu.turn.header_mem
  rintro ⟨hreach, hedge, hdom⟩
  refine (Digraph.dominates_iff.1 hdom).2 ?_
  have hstep := step_of_edge hc (place_of_reaches hu hc hreach) hedge
  rcases step_to_header hu hc hj hstep with ⟨rfl, hout, hsucc⟩ | ⟨i, rfl, rfl⟩ | ⟨_, hpart, _⟩
  · exact avoids_of_outside hu hc (hc.away 0 hj _ hheader) hout hsucc
  · have hne : lap 0 loop.header ≠ lap (i + 1) loop.header := fun heq =>
      absurd (hc.apart 0 hc.pos _ hj _ hheader _ hheader heq).1 (Nat.succ_ne_zero i).symm
    refine (avoids_first hu hc hj (Nat.succ_ne_zero i)).trans ?_
    exact avoids_laps hu hc (Nat.zero_le i) (Nat.lt_of_succ_lt hj) hj
      (fun l _ hle => Nat.ne_of_lt (Nat.lt_succ_of_le hle)) hheader hne
  · simp [hfull] at hpart

/-- In the graph `k` the loop is replaced by `count` laps in a row, the first of them on its own
blocks. -/
structure Flattened (g : Graph) (loop : NaturalLoop) (shape : LoopShape) (count : Nat)
    (lap : Nat → BlockId → BlockId) (removed : List BlockId) (k : Graph) : Prop
    extends Repeated g loop shape count lap k where
  visit_tail : ∀ i < count, ∀ store,
    Machine.visit k (lap i shape.tail) store = (runBody g shape.tail store).map (.leave 0)
  jump : ∀ i < count, k.EndsInJump (lap i shape.tail) ∧ ∀ slot,
    k.successor? (lap i shape.tail) slot = if slot = 0 then
      some (if i + 1 < count then lap (i + 1) shape.header else shape.next) else none
  no_loop : ∀ i < count, ∀ l ∈ k.loopForest.loops, l.header ≠ lap i shape.header
  nodup_removed : removed.Nodup
  mem_removed : ∀ b, b ∈ removed ↔ g.isLive b = true ∧ k.isLive b = false
  killed : ∀ b, g.isLive b = true →
    (k.isLive b = false ↔ b ∈ g.backPads loop.header ∨ ¬ g.flow.Reaches entry b)
  outside : ∀ b, g.isLive b = true → b ∉ loop.blocks → k.isLive b = true →
    (k.block? b).map Block.nodes = (g.block? b).map Block.nodes ∧
      ∀ slot, k.successor? b slot = g.successor? b slot

theorem LaidOut.flattened {count : Nat} (hl : LaidOut g loop shape count lap k) (hg : g.Analyzed)
    (hu : g.Unrollable loop shape) (hfull : shape.isFull = true)
    (hok : Graph.unrollLoop config shape g = .ok removed k) :
    Flattened g loop shape count lap removed k where
  toRepeated := hl.toRepeated
  visit_tail := fun i hi => (hl.course.each i hi).tail.visit_full hfull
  jump := by
    intro i hi
    refine ⟨(hl.course.each i hi).tail.jump hfull, fun slot => ?_⟩
    rw [(hl.course.each i hi).tail.full hfull]
    simp [LoopShape.entrance, hfull]
  no_loop := by
    intro i hi l hmem heq
    rw [hl.analyzed.loops] at hmem
    obtain ⟨p, hp⟩ := Digraph.mem_headers_iff.1 (List.mem_map_of_mem hmem)
    rw [heq, hu.header] at hp
    exact hl.course.not_isBackEdge hu hfull hi hp
  nodup_removed := by
    obtain ⟨slots, hremoves⟩ := removes_unrollLoop hok
    rw [hremoves.eq_slots hg.wellFormed.numbered]
    exact hremoves.nodup
  mem_removed := fun _ => hl.mem_removed hg.wellFormed.numbered hok
  killed := fun _ hb => hl.isLive_eq_false_iff hu hg hb
  outside := by
    intro b hb hout hlive
    have hplace : g.Outside loop b := by
      refine ((hl.live_iff b).1 hlive).resolve_right fun hon => hout ?_
      exact (mem_turn.1 ((hl.onCourse_iff hb).1 hon)).1
    obtain ⟨⟨old, new, hold, hnew, himage, _⟩, hsucc⟩ := hl.course.outside b hplace
    exact ⟨by simp [hold, hnew, himage.nodes], hsucc⟩

/-- **Full unrolling removes the loop and nothing else.**  In a finished graph whose records have
single owners, an accepted loop that runs `count` times becomes a row of `count` laps.  Each block
of the loop but for the pads on the back edge is copied once for each further lap; those pads and
what was not reached are removed; no lap is headed by a loop any more; the tails of the laps jump
ahead; and the blocks outside stay as they were.  The pads on the back edge are the members from
which one comes to the header over pads.  That the graph keeps no analysis but its own is needed:
`halfwayLoop` is returned with an older one. -/
theorem unrollLoop_flattens {count : Nat} (hg : Finished g) (howner : g.SingleOwner)
    (hloop : loop ∈ g.loopForest.loops) (hshape : g.loopShape config loop = .ok shape)
    (hcount : shape.iterations = some count) :
    (∀ b, b ∈ g.backPads loop.header ↔ b ∈ loop.blocks ∧
      Relation.TransGen (fun c d => g.IsPad c ∧ d ∈ g.successors c) b loop.header) ∧
    ∃ removed k lap, Graph.unrollLoop config shape g = .ok removed k ∧
      Flattened g loop shape count lap removed k := by
  obtain ⟨hs, hanalyzed, _⟩ := hg.sound_analyzed
  have ha := accepted_of_loopShape hshape
  have hu := unrollable_of_accepted hs hanalyzed hloop ha
  have hfull : shape.isFull = true := by simp [LoopShape.isFull, hcount]
  obtain ⟨_, _, _, _, hleft⟩ := tripsLeft_of_tripCount (hcount ▸ ha.iterations)
  have hlaps : shape.extraCopies config + 1 = count := by
    rw [LoopShape.extraCopies, hcount]
    exact Nat.sub_add_cancel hleft.pos
  obtain ⟨removed, k, lap, hok, hl⟩ := unrollLoop_laidOut hg howner hloop ha hlaps
  refine ⟨fun b => ?_, removed, k, lap, hok, hl.flattened hanalyzed hu hfull hok⟩
  exact mem_backPads_iff hs hanalyzed hu.parts fun p => ha.skipPads_inside hanalyzed hloop

theorem unrollLoop_flattens_countingLoop :
    ∃ removed k lap,
      Graph.unrollLoop {} countingShape (Builder.countingLoop true).graph.threadLocals =
        .ok removed k ∧
      Flattened (Builder.countingLoop true).graph.threadLocals countingBody countingShape 3 lap
        removed k := by
  have howner : (Builder.countingLoop true).graph.threadLocals.SingleOwner := by decide +kernel
  exact (unrollLoop_flattens (finished_countingLoop true) howner (countingBody_mem true)
    (loopShape_of_accepted accepted_countingLoop) rfl).2

/-! ## A forest kept too early -/

/-- The one loop that the builder of `halfwayLoop` kept. -/
def halfwayBody : NaturalLoop := ⟨0, 0, [0], BitSet.ofList 3 [0], [0]⟩

/-- The shape found for that loop with a constant bound. -/
def halfwayShape : LoopShape where
  header := 0
  preHeader := 2
  tail := 0
  next := 1
  inLoopSlot := 0
  inverse := false
  induction := ⟨0, 2, .arithAdd, 1, .compareLess, .constant 0, .constant 3⟩
  iterations := some 3
  body := { blocks := 1, material := 7, numeric := 3, localAccesses := 2 }

theorem accepted_halfwayLoop :
    (Builder.halfwayLoop true).graph.threadLocals.Accepted {} halfwayBody halfwayShape where
  header := rfl
  preHeader := by cbv
  bottom := by cbv
  induction := by decide +kernel
  iterations := by cbv
  body := by decide +kernel
  profitable := by decide +kernel

theorem loops_halfwayLoop (known : Bool) :
    (Builder.halfwayLoop known).graph.threadLocals.loopForest.loops = [halfwayBody] := by
  cases known <;> cbv

/-- **A loop can stay**, if its builder was asked for the loops while the graph was growing: the
block that headed the loop unrolled still heads the one around it, which was closed later. -/
theorem unrollLoop_halfwayLoop :
    (Builder.halfwayLoop true).Made ∧
      (Builder.halfwayLoop true).finish = .ok (Builder.halfwayLoop true).graph.threadLocals ∧
      (Builder.halfwayLoop true).graph.threadLocals.SingleOwner ∧
      halfwayBody ∈ (Builder.halfwayLoop true).graph.threadLocals.loopForest.loops ∧
      (Builder.halfwayLoop true).graph.threadLocals.loopShape {} halfwayBody = .ok halfwayShape ∧
      halfwayShape.iterations = some 3 ∧
      ∃ removed k, Graph.unrollLoop {} halfwayShape (Builder.halfwayLoop true).graph.threadLocals =
        .ok removed k ∧ ∃ l ∈ k.loopForest.loops, l.header = halfwayShape.header := by
  refine ⟨Builder.made_halfwayLoop true, Builder.finish_halfwayLoop true, by decide +kernel, ?_,
    loopShape_of_accepted accepted_halfwayLoop, rfl, ?_⟩
  · simp [loops_halfwayLoop]
  · have hok : Graph.unrollLoop {} halfwayShape (Builder.halfwayLoop true).graph.threadLocals =
        .ok [] (finalState (Graph.unrollLoop {} halfwayShape
          (Builder.halfwayLoop true).graph.threadLocals)) := by cbv
    have hheaders : (finalState (Graph.unrollLoop {} halfwayShape
        (Builder.halfwayLoop true).graph.threadLocals)).loopForest.loops.map NaturalLoop.header =
          [halfwayShape.header] := by cbv
    refine ⟨[], _, hok, List.mem_map.1 ?_⟩
    rw [hheaders]
    exact List.mem_singleton_self _

end Unroller
