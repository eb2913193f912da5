import Mathlib.Tactic
import Unroller.Proofs.Cloning.Outcomes
import Unroller.Proofs.Graph.Pruning
import Unroller.Proofs.Graph.RebuiltLocals
import Unroller.Proofs.Phase.Freshness

/-!
# A phase that changes nothing

A phase that reports no change has rejected all it looked at.  What it did to the graph until then
is to recompute reachability once, and to keep analyses; `invalidate` leaves these out of a
comparison.

* `Finished.resetReachability_eq_self`: recomputing the reachability of a graph that a builder
  returned finds the flags and the order of predecessors that threading left.
* `Unrolls.untouched`: rounds that report no change leave the graph, by induction on the rounds.
* `run_untouched`: so does a run, whatever the graph, the settings and the history.
-/

namespace Unroller

open Unroller.Graph

/-! ## Graphs that are up to date -/

namespace Graph

variable {g h : Graph}

/-- Threading starts with a recomputation and keeps what that has found. -/
theorem WellFormed.resetReachability_threadLocals (hg : g.WellFormed) :
    g.threadLocals.resetReachability = g.threadLocals := by
  have hr := hg.rephrased_threadLocals
  have hreach := (rebuilding_passes hg.resetReachability).reachOf_eq
  refine resetReachability_eq_self (hr.isLive_eq entry) hr.size
    (fun b _ => hr.successors_eq hg b) fun b block hb => ?_
  rw [← hreach]
  exact congrArg (Option.map reachOf) hb

/-- Kept analyses have no part in a recomputation. -/
theorem resetReachability_eq_self_of_caches (hsame : h.invalidate = g.invalidate)
    (hg : g.resetReachability = g) : h.resetReachability = h := by
  refine resetReachability_eq_self (g := g) (congrArg (fun k => k.isLive entry) hsame)
    (congrArg (fun k => k.blocks.size) hsame)
    (fun b _ => congrArg (fun k => k.successors b) hsame) fun b block hb => ?_
  have hblock : h.block? b = g.block? b := congrArg (fun k => k.block? b) hsame
  rw [hg, ← hblock, hb]
  rfl

theorem invalidate_cacheLoops (g : Graph) : g.cacheLoops.invalidate = g.invalidate := by
  unfold cacheLoops
  split <;> rfl

end Graph

variable {g : Graph}

/-- **What a builder returns is up to date**: flags and predecessor lists are those that a
recomputation finds, in the same order. -/
theorem Builder.resetReachability_eq_self {b : Builder} (hfinish : b.finish = .ok g) :
    g.resetReachability = g := by
  obtain ⟨hvalid, rfl⟩ := Builder.of_finish_eq_ok hfinish
  exact (validate_eq_ok_iff.1 hvalid).resetReachability_threadLocals

theorem Finished.resetReachability_eq_self (h : Finished g) : g.resetReachability = g := by
  induction h with
  | finish _ hfinish => exact Builder.resetReachability_eq_self hfinish
  | @cacheDominators g _ ih => exact resetReachability_eq_self_of_caches (g := g) rfl ih
  | cacheLoops _ ih => exact resetReachability_eq_self_of_caches (invalidate_cacheLoops _) ih

/-! ## Runs that report no change -/

namespace Compilation

variable {c c' : Compilation} {looks : List Look}

/-- **Any number of rounds.**  A reported change stays reported, and without one the graph is as it
was but for kept analyses: a round that unrolls a loop reports a change, and one that does not only
looks. -/
theorem Unrolls.untouched {changed changed' : Bool} {budget : Nat}
    (h : Unrolls changed budget c looks (.ok changed' c')) :
    (changed = true → changed' = true) ∧
      (changed' = false → c'.graph.invalidate = c.graph.invalidate) := by
  generalize hresult : EStateM.Result.ok changed' c' = result at h
  induction h with
  | spent =>
    cases hresult
    exact ⟨id, fun _ => rfl⟩
  | @exhausted _ _ c _ _ search =>
    cases hresult
    refine ⟨id, fun _ => ?_⟩
    have hstate := (select_state c).1
    rw [search.eq_select] at hstate
    have hgraph : c'.graph = c.graph.cacheLoops := hstate
    rw [hgraph, invalidate_cacheLoops]
  | stopped | failed => cases hresult
  | unrolled _ _ _ ih =>
    have hchanged := (ih hresult).1 rfl
    refine ⟨fun _ => hchanged, fun hnot => ?_⟩
    rw [hchanged] at hnot
    cases hnot

/-- **A phase that changes nothing leaves the graph as it was.**  If a run reports no change, the
graph is the given one when the function is refused, and else the given one with its reachability
recomputed, but for kept analyses.  If a builder returned the graph, it is the given one in either
case, whatever analyses it has kept. -/
theorem run_untouched (h : run c = .ok false c') :
    (c.phase.config.allows c.graph.function = false → c'.graph = c.graph) ∧
      (c.phase.config.allows c.graph.function = true →
        c'.graph.invalidate = c.graph.resetReachability.invalidate) ∧
      (Finished c.graph ∨ (∃ b : Builder, b.finish = .ok c.graph) →
        c'.graph.invalidate = c.graph.invalidate) := by
  obtain ⟨looks, hruns⟩ := exists_runs c
  rw [h] at hruns
  cases hruns with
  | refused hrefuse =>
    refine ⟨fun _ => rfl, fun hallow => ?_, fun _ => rfl⟩
    rw [hrefuse] at hallow
    cases hallow
  | done hallow hdump hrounds hfinish =>
    rename_i c₁ c₂ changed
    have hstart : c₁.graph = c.graph.resetReachability := by
      have hstate := (dump_state "before loop unrolling"
        { c with graph := c.graph.resetReachability }).1
      rwa [hdump] at hstate
    -- a run that ends by threading reports a change
    obtain ⟨rfl, rfl⟩ : changed = false ∧ c' = c₂ := by
      cases changed with
      | false =>
        cases hfinish
        exact ⟨rfl, rfl⟩
      | true =>
        rw [Compilation.finish] at hfinish
        simp only [if_true] at hfinish
        split at hfinish
        · cases hfinish
        · split at hfinish <;> cases hfinish
    have hgraph : c'.graph.invalidate = c.graph.resetReachability.invalidate :=
      hstart ▸ hrounds.untouched.2 rfl
    refine ⟨fun hrefuse => ?_, fun _ => hgraph, fun hreturned => ?_⟩
    · rw [hallow] at hrefuse
      cases hrefuse
    · have hsame : c.graph.resetReachability = c.graph := by
        rcases hreturned with hfinished | ⟨_, hfinish⟩
        · exact hfinished.resetReachability_eq_self
        · exact Builder.resetReachability_eq_self hfinish
      rw [hgraph, hsame]

/-- The counting loop that runs an unknown number of times, under the conservative settings. -/
def openStart : Compilation :=
  ⟨{ config := .conservative }, (Builder.countingLoop false).graph.threadLocals, {}⟩

theorem run_untouched_openLoop :
    run openStart = .ok false (finalState (run openStart)) ∧
      (finalState (run openStart)).phase.rejected = [1] ∧
      (finalState (run openStart)).graph.invalidate = openStart.graph.invalidate := by
  have hrun : run openStart = .ok false (finalState (run openStart)) := by cbv
  exact ⟨hrun, by cbv, (run_untouched hrun).2.2 (.inl (finished_countingLoop false))⟩

end Compilation

end Unroller
