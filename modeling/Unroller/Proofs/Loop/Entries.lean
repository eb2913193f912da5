import Mathlib
import Unroller.Proofs.Graph.Building
import Unroller.Proofs.Loop.Preservation

/-!
# Every entry of a counted loop

The trip count found for a loop of a finished graph is the number of times its tail runs, each time
control comes to the header from outside.

* `loopShape_of_accepted`: the checks accept a loop exactly when each of them succeeds.
* `turns_of_iterations`: every entry takes as many turns as the trip count says.
* `entryPad_turns`: not so if the entry is a pad inside an outer loop.  The way from the start of
  the function to the header then passes no block that sets the counter.
-/

namespace Unroller

open Unroller.Graph Machine

variable {g : Graph} {loop : NaturalLoop} {shape : LoopShape} {config : UnrollConfig}

theorem Graph.loopShape_of_accepted (h : g.Accepted config loop shape) :
    g.loopShape config loop = .ok shape := by
  obtain ⟨header, preHeader, tail, next, slot, inverse, v, iterations, body⟩ := shape
  obtain ⟨hheader, hpre, hbottom, hinduction, hiterations, hbody, hprofitable⟩ := h
  simp only at hheader hpre hbottom hinduction hiterations hbody hprofitable
  rw [loopShape, hpre]
  simp only [bind, Except.bind, Refusal.rejecting_ok, hbottom, hinduction, hiterations, hbody]
  rw [show iterations.isSome = LoopShape.isFull ⟨header, preHeader, tail, next, slot, inverse, v,
    iterations, body⟩ from rfl, hprofitable, hheader]
  rfl

/-- **The static trip count is the dynamic one**, unless the entry is a pad that something leads to.
Each time a run of a finished graph comes to the header of a loop from outside, the tail runs at
most `k` times before control leaves the loop: it stays in the loop after each turn but the last,
leaves by the exit after the `k`th, and gets there if the run returns. -/
theorem turns_of_iterations (hg : Finished g) (he : g.EntryApart)
    (hloop : loop ∈ g.loopForest.loops) (hshape : g.loopShape config loop = .ok shape) {k : Nat}
    (hk : shape.iterations = some k) (store : Store) (budget : Nat) {before after : List BlockId}
    (hsplit : itinerary g store budget = before ++ shape.header :: after)
    (hout : ∀ p, before.getLast? = some p → p ∉ loop.blocks) :
    CountedLoop.Turns g shape k (shape.header :: after.takeWhile loop.contains)
      (after.dropWhile loop.contains) (∃ e, run g store budget = .ok e) := by
  obtain ⟨_, hanalyzed, _⟩ := hg.sound_analyzed
  have ha := accepted_of_loopShape hshape
  obtain ⟨initial, bound, hc, hleft⟩ := CountedLoop.of_accepted hanalyzed hloop ha hk
  rw [ha.header] at hsplit ⊢
  exact hc.turns_itinerary hleft (he.notMem_lookedThrough hanalyzed hc.parts) store budget hsplit
    hout

/-! ## A loop with three trips -/

/-- The loop of `countingLoop`. -/
def countingBody : NaturalLoop := ⟨0, 1, [1], BitSet.ofList 3 [1], [1]⟩

/-- The shape of `countingLoop` with a constant bound. -/
def countingShape : LoopShape where
  header := 1
  preHeader := 0
  tail := 1
  next := 2
  inLoopSlot := 0
  inverse := false
  induction := ⟨0, 5, .arithAdd, 1, .compareLess, .constant 0, .constant 3⟩
  iterations := some 3
  body := { blocks := 1, material := 7, numeric := 3, localAccesses := 2 }

theorem accepted_countingLoop :
    (Builder.countingLoop true).graph.threadLocals.Accepted {} countingBody countingShape where
  header := rfl
  preHeader := by cbv
  bottom := by cbv
  induction := by decide +kernel
  iterations := by cbv
  body := by decide +kernel
  profitable := by decide +kernel

theorem countingBody_mem (known : Bool) :
    countingBody ∈ (Builder.countingLoop known).graph.threadLocals.loopForest.loops := by
  have hfirst : (Builder.countingLoop known).graph.threadLocals.loopForest.loops[0]? =
      some countingBody := by
    cases known <;> cbv
  exact List.mem_of_getElem? hfirst

theorem entryApart_countingLoop (known : Bool) :
    (Builder.countingLoop known).graph.threadLocals.EntryApart := by
  intro block hblock hpad
  have hflag : ((Builder.countingLoop known).graph.threadLocals.block? entry).any
      (fun block => block.flags.edgePad) = false := by
    cases known <;> decide +kernel
  rw [hblock, Option.any_some, hpad] at hflag
  cases hflag

theorem turns_countingLoop :
    CountedLoop.Turns (Builder.countingLoop true).graph.threadLocals countingShape 3 [1, 1, 1] [2]
      (∃ e, run (Builder.countingLoop true).graph.threadLocals {} 100 = .ok e) := by
  have hitinerary : itinerary (Builder.countingLoop true).graph.threadLocals {} 100 =
      [0] ++ countingShape.header :: [1, 1, 2] := by decide +kernel
  have hturns := turns_of_iterations (finished_countingLoop true) (entryApart_countingLoop true)
    (countingBody_mem true) (loopShape_of_accepted accepted_countingLoop) rfl {} 100 hitinerary
    (by simp [countingBody])
  exact hturns

/-! ## An entry inside an outer loop -/

namespace Builder

/-- A pad at the entry, and a loop after it that adds to locals 0 and 1 until the first is three. -/
def entryPadBody : Builder :=
  let b := (start 3 "" none).edgePad 1
  let b := (((b.2.block 1).2.block 1).2.block 1).2.switchTo 1
  let b := (b.getLocal 0).2
  let b := (b.constant (.int32 1)).2
  let b := (b.binary .arithAdd (.typed 1 .int32) (.typed 2 .int32)).2
  let b := (b.setLocal 0 (.typed 3 .int32)).2
  let b := (b.getLocal 1).2
  let b := (b.binary .arithAdd (.typed 5 .int32) (.typed 2 .int32)).2
  (b.setLocal 1 (.typed 6 .int32)).2

/-- The block after that loop sets local 0 to zero, and goes back to the entry if local 2 says
so. -/
def entryPadLoop : Builder :=
  let b := (entryPadBody.constant (.int32 3)).2
  let b := (b.binary .compareLess (.typed 3 .int32) (.typed 8 .int32)).2
  let b := (b.branch (.untyped 9) 1 2).2.switchTo 2
  let b := (b.constant (.int32 0)).2
  let b := (b.setLocal 0 (.untyped 11)).2
  let b := (b.getLocal 2).2
  let b := (b.branch (.untyped 13) 0 3).2.switchTo 3
  let b := (b.getLocal 1).2
  (b.ret (.untyped 15)).2

theorem made_entryPadBody : entryPadBody.Made := by
  have hblocks := (((((Made.start 3 "" none).edgePad 1).block 1).block 1).block 1).switchTo 1
  exact ((((((hblocks.node _ _ _).node _ _ _).node _ _ _).node _ _ _).node _ _ _).node _ _ _).node
    _ _ _

theorem made_entryPadLoop : entryPadLoop.Made := by
  have hinner :=
    (((made_entryPadBody.node .jsConstant .none (.constant (.int32 3))).node .compareLess
    (.two (.typed 3 .int32) (.typed 8 .int32)) .bare).branch (.untyped 9) 1 2).switchTo 2
  exact ((((((hinner.node _ _ _).node _ _ _).node _ _ _).branch _ _ _).switchTo _).node _ _ _).node
    _ _ _

end Builder

theorem finished_entryPadLoop : Finished Builder.entryPadLoop.graph.threadLocals :=
  .of_uncached Builder.made_entryPadLoop (Builder.finish_of_defects rfl (by decide +kernel))
    ⟨rfl, rfl⟩

/-- The inner loop of `entryPadLoop`. -/
def entryPadInner : NaturalLoop := ⟨1, 1, [1], BitSet.ofList 4 [1], [1]⟩

/-- The shape found for the inner loop of `entryPadLoop`: the pad is looked through. -/
def entryPadShape : LoopShape where
  header := 1
  preHeader := 2
  tail := 1
  next := 2
  inLoopSlot := 0
  inverse := false
  induction := ⟨0, 3, .arithAdd, 1, .compareLess, .constant 0, .constant 3⟩
  iterations := some 3
  body := { blocks := 1, material := 10, numeric := 4, localAccesses := 4 }

theorem accepted_entryPadLoop (limit : Nat) :
    Builder.entryPadLoop.graph.threadLocals.Accepted { maxUnrolledLoops := limit } entryPadInner
      entryPadShape where
  header := rfl
  preHeader := by cbv
  bottom := by cbv
  induction := by decide +kernel
  iterations := by cbv
  body := by
    show bodyStats _ _ {} = .ok _
    decide +kernel
  profitable := by
    show BodyStats.profitable _ _ {} = .ok ()
    decide +kernel

/-- **The trip count can be wrong** if the entry is a pad inside an outer loop: three trips are
promised, and eight are made. -/
theorem entryPad_turns :
    Finished Builder.entryPadLoop.graph.threadLocals ∧
      entryPadInner ∈ Builder.entryPadLoop.graph.threadLocals.loopForest.loops ∧
      Builder.entryPadLoop.graph.threadLocals.loopShape {} entryPadInner = .ok entryPadShape ∧
      entryPadShape.iterations = some 3 ∧
      itinerary Builder.entryPadLoop.graph.threadLocals
        { locals := #[.int32 (-5), .int32 0, .int32 0] } 100 =
          [0, 1, 1, 1, 1, 1, 1, 1, 1, 2, 3] := by
  refine ⟨finished_entryPadLoop, ?_, loopShape_of_accepted (accepted_entryPadLoop 2), rfl, ?_⟩
  · have hsecond : Builder.entryPadLoop.graph.threadLocals.loopForest.loops[1]? =
        some entryPadInner := by cbv
    exact List.mem_of_getElem? hsecond
  · decide +kernel

end Unroller
