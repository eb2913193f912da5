import Mathlib.Tactic
import Unroller.Proofs.Execution.Stepping

/-!
# The budget of a run only cuts it short

The loop of a run compares its budget with the number of nodes before each node, and nothing else in
it depends on the budget.  `exec` recurses on what is left of the budget; `Leaves` describes the
loop without that measure.

* `Leaves`, `Concludes`: after how many nodes the loop leaves, and with what.
* `leaves_exec`, `Leaves.unique`: it does leave, in one way, and the budget bounds the nodes.
* `Leaves.again`, `Leaves.narrow`: a loop that was not cut short goes the same way under every
  budget that allows its nodes, and every smaller budget cuts it short.
* `run_budget`: the same for whole runs.
-/

namespace Unroller

/-- The blocks list existing nodes only. -/
def Graph.ListsExisting (g : Graph) : Prop :=
  ∀ b block, g.block? b = some block → ∀ n ∈ block.nodes, n < g.nodes.size

theorem Graph.WellFormed.listsExisting {g : Graph} (hg : g.WellFormed) : g.ListsExisting :=
  fun b block hb n hn => hg.exists_node b block hb n (List.mem_append_right _ hn)

namespace Machine

open Unroller.Graph (entry)

variable {g : Graph} {store : Store} {s : State} {budget budget' k k' : Nat}
  {r r' : Except RunFault Execution} {e : Execution}

/-! ## The loop of a run -/

/-- The loop of a run, from where it stands: after how many further nodes it leaves, and with what.
The budget is compared before each node. -/
inductive Leaves (g : Graph) (budget : Nat) : State → Nat → Except RunFault Execution → Prop where
  | exhausted {s : State} (spent : budget ≤ s.steps) :
    Leaves g budget s 0 (.error (.budgetExhausted budget))
  | fault {s : State} {fault : RunFault} (left : s.steps < budget)
    (step : step g s = .error fault) : Leaves g budget s 1 (.error fault)
  | returned {s : State} {e : Execution} (left : s.steps < budget)
    (step : step g s = .ok (.returned e)) : Leaves g budget s 1 (.ok e)
  | running {s s' : State} {k : Nat} {r : Except RunFault Execution} (left : s.steps < budget)
    (step : step g s = .ok (.running s')) (leaves : Leaves g budget s' k r) :
    Leaves g budget s (k + 1) r

/-- A whole run under a budget: the loop from the first node of the entry. -/
def Concludes (g : Graph) (store : Store) (budget k : Nat) (r : Except RunFault Execution) : Prop :=
  match enter g entry store 0 with
  | .error fault => k = 0 ∧ r = .error fault
  | .ok s => Leaves g budget s k r

/-- **The loop leaves**, after no more nodes than the budget has left. -/
theorem leaves_exec (hs : Situated g s) (n : Nat) :
    ∃ k ≤ n, Leaves g (s.steps + n) s k (exec g n s) := by
  induction n generalizing s with
  | zero => exact ⟨0, le_rfl, .exhausted le_rfl⟩
  | succ n ih =>
    have hleft : s.steps < s.steps + (n + 1) := by omega
    rw [exec]
    cases hstep : step g s with
    | error fault => exact ⟨1, by omega, .fault hleft hstep⟩
    | ok outcome =>
      cases outcome with
      | returned e => exact ⟨1, by omega, .returned hleft hstep⟩
      | running s' =>
        obtain ⟨hsteps, hs'⟩ := steps_of_running hs hstep
        obtain ⟨k, hk, hleaves⟩ := ih hs'
        rw [hsteps, Nat.add_assoc, Nat.add_comm 1] at hleaves
        exact ⟨k + 1, by omega, .running hleft hstep hleaves⟩

/-- The loop leaves in one way. -/
theorem Leaves.unique (h : Leaves g budget s k r) (h' : Leaves g budget s k' r') :
    k' = k ∧ r' = r := by
  induction h generalizing k' with
  | exhausted hspent =>
    cases h' with
    | exhausted => exact ⟨rfl, rfl⟩
    | fault hleft | returned hleft | running hleft => omega
  | fault hleft hstep =>
    cases h' with
    | exhausted => omega
    | fault _ hstep' | returned _ hstep' | running _ hstep' =>
      rw [hstep] at hstep'
      cases hstep' <;> exact ⟨rfl, rfl⟩
  | returned hleft hstep =>
    cases h' with
    | exhausted => omega
    | fault _ hstep' | returned _ hstep' | running _ hstep' =>
      rw [hstep] at hstep'
      cases hstep' <;> exact ⟨rfl, rfl⟩
  | running hleft hstep _ ih =>
    cases h' with
    | exhausted => omega
    | fault _ hstep' | returned _ hstep' =>
      rw [hstep] at hstep'
      cases hstep'
    | running _ hstep' hleaves' =>
      rw [hstep] at hstep'
      cases hstep'
      obtain ⟨rfl, hr⟩ := ih hleaves'
      exact ⟨rfl, hr⟩

/-! ## Other budgets -/

/-- A loop that was not cut short goes the same way under every budget that allows its nodes. -/
theorem Leaves.again (h : Leaves g budget s k r) (hs : Situated g s)
    (hr : r ≠ .error (.budgetExhausted budget)) (hle : s.steps + k ≤ budget') :
    Leaves g budget' s k r := by
  induction h with
  | exhausted => exact absurd rfl hr
  | fault _ hstep => exact .fault (by omega) hstep
  | returned _ hstep => exact .returned (by omega) hstep
  | running _ hstep _ ih =>
    obtain ⟨hsteps, hs'⟩ := steps_of_running hs hstep
    exact .running (by omega) hstep (ih hs' hr (by omega))

/-- A loop that returned has counted its nodes. -/
theorem Leaves.steps_eq (h : Leaves g budget s k (.ok e)) (hs : Situated g s) :
    e.steps = s.steps + k := by
  generalize hr : Except.ok e = r at h
  induction h with
  | exhausted | fault => cases hr
  | returned _ hstep =>
    cases hr
    exact steps_of_returned hs hstep
  | running _ hstep _ ih =>
    obtain ⟨hsteps, hs'⟩ := steps_of_running hs hstep
    have heq := ih hs' hr
    omega

/-- A loop that takes more nodes than a budget has left is cut short by it. -/
theorem Leaves.narrow (h : Leaves g budget s k r) (hs : Situated g s) (hle : s.steps ≤ budget')
    (hlt : budget' < s.steps + k) :
    Leaves g budget' s (budget' - s.steps) (.error (.budgetExhausted budget')) := by
  by_cases hspent : budget' ≤ s.steps
  · rw [Nat.sub_eq_zero_of_le hspent]
    exact .exhausted hspent
  · induction h with
    | exhausted | fault | returned => omega
    | @running s s' k r _ hstep _ ih =>
      obtain ⟨hsteps, hs'⟩ := steps_of_running hs hstep
      have hcount : budget' - s.steps = budget' - s'.steps + 1 := by omega
      rw [hcount]
      refine .running (by omega) hstep ?_
      by_cases hspent' : budget' ≤ s'.steps
      · rw [Nat.sub_eq_zero_of_le hspent']
        exact .exhausted hspent'
      · exact ih hs' (by omega) (by omega) hspent'

/-- The faults of a loop: the budget, or what a step from a state on the way blames. -/
theorem Leaves.fault_cases {fault : RunFault} (h : Leaves g budget s k (.error fault))
    (hs : Situated g s) :
    fault = .budgetExhausted budget ∨
      ∃ s', Situated g s' ∧ (Blames g s'.node fault ∨ Strays fault) := by
  generalize hr : Except.error fault = r at h
  induction h with
  | exhausted =>
    cases hr
    exact .inl rfl
  | @fault s _ _ hstep =>
    cases hr
    have hmeets := step_meets hs
    rw [hstep] at hmeets
    exact .inr ⟨s, hs, hmeets⟩
  | returned => cases hr
  | running _ hstep _ ih => exact ih (steps_of_running hs hstep).2 hr

/-! ## Whole runs -/

/-- A run ends, after no more nodes than its budget. -/
theorem concludes_run (g : Graph) (store : Store) (budget : Nat) :
    ∃ k ≤ budget, Concludes g store budget k (run g store budget) := by
  rw [run]
  cases henter : enter g entry store 0 with
  | error fault => exact ⟨0, Nat.zero_le _, by simp [Concludes, henter]⟩
  | ok s =>
    obtain ⟨hsteps, hs⟩ := situated_of_enter henter
    obtain ⟨k, hk, hleaves⟩ := leaves_exec hs budget
    rw [hsteps, Nat.zero_add] at hleaves
    exact ⟨k, hk, by simpa [Concludes, henter] using hleaves⟩

theorem Concludes.unique (h : Concludes g store budget k r) (h' : Concludes g store budget k' r') :
    k' = k ∧ r' = r := by
  cases henter : enter g entry store 0 with
  | error fault =>
    simp only [Concludes, henter] at h h'
    exact ⟨h'.1.trans h.1.symm, h'.2.trans h.2.symm⟩
  | ok s =>
    simp only [Concludes, henter] at h h'
    exact h.unique h'

theorem Concludes.run_eq (h : Concludes g store budget k r) : run g store budget = r := by
  obtain ⟨k', _, h'⟩ := concludes_run g store budget
  exact (h.unique h').2

/-- A run that was not cut short goes the same way under every budget that allows its nodes. -/
theorem Concludes.again (h : Concludes g store budget k r)
    (hr : r ≠ .error (.budgetExhausted budget))
    (hle : k ≤ budget') : Concludes g store budget' k r := by
  rw [Concludes] at h ⊢
  split at h
  · exact h
  · rename_i s henter
    obtain ⟨hsteps, hs⟩ := situated_of_enter henter
    exact h.again hs hr (by omega)

theorem Concludes.steps_eq (h : Concludes g store budget k (.ok e)) : e.steps = k := by
  rw [Concludes] at h
  split at h
  · cases h.2
  · rename_i s henter
    obtain ⟨hsteps, hs⟩ := situated_of_enter henter
    rw [h.steps_eq hs, hsteps, Nat.zero_add]

/-- A run that takes more nodes than a budget allows is cut short by it. -/
theorem Concludes.narrow (h : Concludes g store budget k r) (hlt : budget' < k) :
    Concludes g store budget' budget' (.error (.budgetExhausted budget')) := by
  rw [Concludes] at h ⊢
  split at h
  · omega
  · rename_i s henter
    obtain ⟨hsteps, hs⟩ := situated_of_enter henter
    have hle : s.steps ≤ budget' := by omega
    have hcut := h.narrow hs hle (by omega)
    rwa [hsteps, Nat.sub_zero] at hcut

/-- A run over blocks that list existing nodes misses none. -/
theorem Concludes.ne_missingNode (hg : g.ListsExisting) (h : Concludes g store budget k r)
    (n : NodeId) :
    r ≠ .error (.missingNode n) := by
  rintro rfl
  rw [Concludes] at h
  split at h
  · rename_i fault henter
    have hmeets := enter_meets g entry store 0
    rw [henter, ← Except.error.inj h.2] at hmeets
    exact hmeets
  · rename_i s henter
    rcases h.fault_cases (situated_of_enter henter).2 with hfault | ⟨s', hs', hblames | hstrays⟩
    · cases hfault
    · obtain ⟨rfl, hnone⟩ := hblames
      obtain ⟨block, hb, hsuffix⟩ := hs'
      have hlt := hg s'.block block hb s'.node (hsuffix.subset (List.mem_cons_self ..))
      obtain ⟨node, hnode⟩ := Graph.exists_node? hlt
      rw [hnode] at hnone
      cases hnone
    · exact hstrays

/-- **The budget only cuts a run short.**  Over blocks that list existing nodes, and whatever the
store, the loop of a run ends under every budget, in one way and after no more nodes than the
budget, and it misses no node.  If it returns, it has counted at most as many nodes as the budget;
it returns the same under every budget that allows as many, and every smaller budget is exhausted.
If it faults for another reason than its budget, it faults the same under every larger budget. -/
theorem run_budget (g : Graph) (hg : g.ListsExisting) (store : Store) (budget : Nat) :
    (∃ k ≤ budget, ∀ k' r, Concludes g store budget k' r ↔ k' = k ∧ r = run g store budget) ∧
    (∀ n, run g store budget ≠ .error (.missingNode n)) ∧
    (∀ e, run g store budget = .ok e → e.steps ≤ budget ∧
      (∀ budget', e.steps ≤ budget' → run g store budget' = .ok e) ∧
      ∀ budget' < e.steps, run g store budget' = .error (.budgetExhausted budget')) ∧
    ∀ fault, run g store budget = .error fault → fault ≠ .budgetExhausted budget →
      ∀ budget' ≥ budget, run g store budget' = .error fault := by
  obtain ⟨k, hk, hruns⟩ := concludes_run g store budget
  refine ⟨⟨k, hk, fun k' r => ⟨hruns.unique, ?_⟩⟩, hruns.ne_missingNode hg, fun e he => ?_,
    fun fault hfault hne budget' hle => ?_⟩
  · rintro ⟨rfl, rfl⟩
    exact hruns
  · rw [he] at hruns
    obtain rfl := hruns.steps_eq
    refine ⟨hk, fun budget' hle => ?_, fun budget' hlt => ?_⟩
    · exact (hruns.again (by simp) hle).run_eq
    · exact (hruns.narrow hlt).run_eq
  · rw [hfault] at hruns
    exact (hruns.again (by simpa using hne) (hk.trans hle)).run_eq

/-- Counting to three takes 26 nodes, and no smaller budget will do. -/
theorem run_budget_countingLoop :
    (Builder.countingLoop true).graph.threadLocals.ListsExisting ∧
      run (Builder.countingLoop true).graph.threadLocals {} 100 = .ok ⟨.int32 3, #[], #[], 26⟩ ∧
      ∀ budget < 26, run (Builder.countingLoop true).graph.threadLocals {} budget =
        .error (.budgetExhausted budget) := by
  have hlists : (Builder.countingLoop true).graph.threadLocals.ListsExisting :=
    (finished_countingLoop true).sound_analyzed.1.wellFormed.listsExisting
  have hrun : run (Builder.countingLoop true).graph.threadLocals {} 100 =
      .ok ⟨.int32 3, #[], #[], 26⟩ := by
    decide +kernel
  exact ⟨hlists, hrun, ((run_budget _ hlists {} 100).2.2.1 _ hrun).2.2⟩

end Machine

end Unroller
