import Mathlib.Tactic
import Unroller.Proofs.Phase.Rounds

/-!
# The phase does not fail

Every look at a loop, every copy and every edit that a phase makes succeeds on a finished graph.
Two things can still stop it: the counter of iterations under the largest limit, and loops that were
looked for while their graph was being built.

* `run_keeps_valid`: on a finished graph a phase does not fail, and leaves a valid one.
* `climbingLoop`: a counter that runs through nearly all 32-bit values.
* `tangledLoops`: two loops each of which is found around the other one.  Their builder kept the
  dominator tree of a time when neither loop was closed.
* `run_of_select_error`: a phase whose first search is stopped is stopped.
* `run_stopped`: so it is with a phase on either of these graphs.
-/

namespace Unroller

open Unroller.Graph

variable {g : Graph}

/-- **The phase never fails** on a finished graph, whatever it has unrolled and rejected before, and
leaves a valid graph.  If it has changed the graph, every live block is reachable, the predecessor
lists are exact, and the graph is threaded.

Under the largest limit on iterations it may stop instead, because the counter overflows; it then
stops at a valid graph. -/
theorem Compilation.run_keeps_valid (hg : Finished g) (phase : Phase) (log : EventLog) :
    (∃ changed c, Compilation.run ⟨phase, g, log⟩ = .ok changed c ∧ c.graph.validate = .ok () ∧
      (changed = true →
        (∀ b, c.graph.isLive b = true → c.graph.flow.Reaches entry b) ∧
        (∀ b block, c.graph.block? b = some block →
          block.preds.Nodup ∧ ∀ q, q ∈ block.preds ↔ b ∈ c.graph.successors q) ∧
        c.graph.form = .threaded)) ∨
    phase.config.maxIterations = Trips.last ∧
      ∃ c, Compilation.run ⟨phase, g, log⟩ = .error .counterOverflow c ∧
        c.graph.validate = .ok () := by
  rcases Compilation.ends_run (c := ⟨phase, g, log⟩) hg.ready with
    ⟨changed, c, hok, hleft⟩ | ⟨e, c, hstopped, ⟨rfl, hlimit⟩, hkept⟩
  case inr =>
    exact .inr ⟨hlimit, c, hstopped, validate_eq_ok_iff.2 hkept.ready.sound.wellFormed⟩
  have hw := hleft.ready.sound.wellFormed
  have hexact := hleft.ready.analyzed.reach
  refine .inl ⟨changed, c, hok, validate_eq_ok_iff.2 hw, fun hchanged => ?_⟩
  have hlive := hleft.reaches hchanged
  refine ⟨hlive, fun b block hb => ⟨hexact.nodup_preds b block hb, fun q => ?_⟩,
    hleft.form hchanged⟩
  rw [hexact.mem_preds_iff b block hb]
  exact and_iff_right_of_imp fun hmem => hlive q (isLive_of_mem_successors hmem)

theorem Compilation.run_keeps_valid_countingLoop :
    ∃ changed c, Compilation.run
        ⟨{ config := {} }, (Builder.countingLoop true).graph.threadLocals, {}⟩ = .ok changed c ∧
      c.graph.validate = .ok () := by
  rcases Compilation.run_keeps_valid (finished_countingLoop true) { config := {} } {} with
    ⟨changed, c, hok, hvalid, _⟩ | ⟨hlimit, _⟩
  · exact ⟨changed, c, hok, hvalid⟩
  · cases hlimit

/-! ## Phases that are stopped -/

namespace Builder

/-- Three blocks, the first of which sets local 0 to the least number. -/
def climbingEntry : Builder :=
  let b := ((((start 1 "" none).block 1).2.block 1).2.block 1).2.switchTo 0
  let b := (b.constant (.int32 (-2147483648))).2
  let b := (b.setLocal 0 (.untyped 0)).2
  (b.jump 1).2.switchTo 1

/-- The second counts it up until it comes round to that number. -/
def climbingLoop : Builder :=
  let b := (climbingEntry.getLocal 0).2
  let b := (b.constant (.int32 1)).2
  let b := (b.binary .arithAdd (.typed 3 .int32) (.typed 4 .int32)).2
  let b := (b.setLocal 0 (.untyped 5)).2
  let b := (b.constant (.int32 (-2147483648))).2
  let b := (b.binary .compareEq (.typed 5 .int32) (.typed 7 .int32)).2
  let b := (b.branch (.untyped 8) 2 1).2.switchTo 2
  (b.ret .empty).2

/-- Blocks 1 and 2 lead to blocks 3 and 4, which do not lead anywhere yet. -/
def tangledEntry : Builder :=
  let b := (((start 1 "" none).block 1).2.block 1).2
  let b := (((b.block 1).2.block 1).2.block 1).2.switchTo 0
  let b := (b.getLocal 0).2
  let b := (b.branch (.untyped 0) 1 2).2.switchTo 1
  let b := (b.jump 3).2.switchTo 2
  (b.jump 4).2

/-- The dominator tree is looked at, and then both come to lead back, each also into the other
loop. -/
def tangledLoops : Builder :=
  let b := tangledEntry.analyzeDominators.switchTo 3
  let b := (b.getLocal 0).2
  let b := (b.branch (.untyped 4) 1 4).2.switchTo 4
  let b := (b.getLocal 0).2
  (b.branch (.untyped 6) 2 3).2

theorem made_climbingEntry : climbingEntry.Made := by
  have hblocks := ((((Made.start 1 "" none).block 1).block 1).block 1).switchTo 0
  exact (((hblocks.node _ _ _).node _ _ _).node _ _ _).switchTo 1

theorem made_climbingLoop : climbingLoop.Made :=
  ((((((((made_climbingEntry.node _ _ _).node _ _ _).node _ _ _).node _ _ _).node _ _ _).node
    _ _ _).branch _ _ _).switchTo 2).node _ _ _

theorem made_tangledEntry : tangledEntry.Made := by
  have hblocks :=
    ((((((Made.start 1 "" none).block 1).block 1).block 1).block 1).block 1).switchTo 0
  exact ((((hblocks.node _ _ _).branch _ _ _).switchTo 1).node _ _ _).switchTo 2 |>.node _ _ _

theorem made_tangledLoops : tangledLoops.Made :=
  ((((made_tangledEntry.analyzeDominators.switchTo 3).node _ _ _).branch _ _ _).switchTo 4).node
    _ _ _ |>.branch _ _ _

theorem finish_climbingLoop : climbingLoop.finish = .ok climbingLoop.graph.threadLocals :=
  finish_of_defects rfl (by decide +kernel)

theorem finish_tangledLoops : tangledLoops.finish = .ok tangledLoops.graph.threadLocals :=
  finish_of_defects rfl (by decide +kernel)

end Builder

/-- The loop of `climbingLoop`. -/
def climbingBody : NaturalLoop := ⟨0, 1, [1], BitSet.ofList 3 [1], [1]⟩

/-- A phase that looks at `climbingLoop` under the largest limit. -/
def climbingStart : Compilation :=
  ⟨{ config := { maxIterations := Trips.last } }, Builder.climbingLoop.graph.threadLocals, {}⟩

/-- A phase that looks at `tangledLoops`. -/
def tangledStart : Compilation :=
  ⟨{ config := {} }, Builder.tangledLoops.graph.threadLocals, {}⟩

/-- A look at the loop is stopped. -/
theorem loopShape_climbingLoop :
    climbingStart.graph.resetReachability.cacheLoops.loopShape climbingStart.phase.config
      climbingBody = .error (.stopped .counterOverflow) :=
  loopShape_of_stopped (p := 0) (v := .climbing) (by cbv)
    (show _ = Except.ok (⟨1, 2, 1⟩ : LoopTail) by cbv) (by decide +kernel)
    InductionVariable.climbing_overflows.2

namespace Compilation

/-- The graph as a phase comes to look at it for the first time. -/
def first (c : Compilation) : Compilation :=
  { c with graph := c.graph.resetReachability.cacheLoops }

/-- A phase that writes no graphs down, and whose first search is stopped. -/
theorem run_of_select_error {c : Compilation} {e : Error}
    (hallow : c.phase.config.allows c.graph.function = true)
    (hdump : c.phase.config.dumpGraph = false)
    (hbudget : 0 < c.phase.config.maxUnrolledLoops - c.phase.unrolled.length)
    (hselect : select { c with graph := c.graph.resetReachability } = .error e c.first) :
    run c = .error e c.first := by
  have hstart : dump "before loop unrolling" { c with graph := c.graph.resetReachability } =
      .ok () { c with graph := c.graph.resetReachability } := by
    simp only [dump, Phase.dumpEvents, hdump]
    rfl
  simp only [run, hallow, Bool.not_true, Bool.false_eq_true, if_false, hstart]
  obtain ⟨budget, hsucc⟩ := Nat.exists_eq_succ_of_ne_zero hbudget.ne'
  rw [hsucc, rounds, hselect]

/-- **A phase can be stopped** on a graph that a builder returned: by the counter of iterations
under the largest limit, and by loops that are found around each other when the builder had its
graph analyzed halfway. -/
theorem run_stopped :
    (Finished climbingStart.graph ∧ ∃ c, run climbingStart = .error .counterOverflow c) ∧
    (Builder.tangledLoops.Made ∧
      Builder.tangledLoops.finish = .ok Builder.tangledLoops.graph.threadLocals ∧
      ∃ c, run tangledStart = .error .endlessNesting c) := by
  have hclimbing : climbingStart.phase.candidateLoops
      climbingStart.graph.resetReachability.cacheLoops.loopForest = .ok [climbingBody] := by cbv
  have htangled : tangledStart.phase.candidateLoops
      tangledStart.graph.resetReachability.cacheLoops.loopForest = .error .endlessNesting := by cbv
  refine ⟨⟨.of_uncached Builder.made_climbingLoop Builder.finish_climbingLoop ⟨rfl, rfl⟩,
    climbingStart.first, run_of_select_error rfl rfl (by decide) ?_⟩, Builder.made_tangledLoops,
    Builder.finish_tangledLoops, tangledStart.first, run_of_select_error rfl rfl (by decide) ?_⟩
  · simp only [select, hclimbing, selectFrom, loopShape_climbingLoop, first]
  · simp only [select, htangled, first]

end Compilation

end Unroller
