import Mathlib.Tactic
import Unroller.Proofs.Execution.Safety

/-!
# Where a run stands in any graph, and what it blames for a fault

Nothing here asks for a valid graph.

* `Blames`: the faults that evaluating a node can end in; each names the node (`evalNode_blames`).
* `Situated`: a run stands in the node list of its block.
* `step_meets`: what a step counts, where it leads, and how it faults.
-/

namespace Unroller.Machine

open Unroller.Graph (entry)

variable {g : Graph} {b : BlockId} {n : NodeId} {node : Node} {values : Values}
  {store : Store} {s : State}

/-! ## Whom a fault blames -/

/-- The faults that evaluating a node of a graph can end in: each is about that node, and only a
node that does not exist is missing. -/
def Blames (g : Graph) (n : NodeId) : RunFault → Prop
  | .deadBlock _ | .fellThrough _ | .budgetExhausted _ => False
  | .missingNode m => m = n ∧ g.node? n = none
  | .lacksOperand m _ | .noValue _ m | .notAnInt m _ | .notAnArray m _ | .overflow m
  | .unsupportedDouble m | .noLocal m | .elementWithoutValue m | .negativeIndex m _ | .noTarget m
  | .noSuccessor m _ | .noSwitchTable m | .danglingSwitchTable m | .threw m | .reachedUnreachable m
  | .unsupported m _ => m = n

/-- A computation that faults for the node `n` only. -/
abbrev Names {α : Type} (g : Graph) (n : NodeId) (x : Except RunFault α) : Prop :=
  Meets (Blames g n) (fun _ => True) x

/-- **A fault of a node names it.** -/
theorem evalNode_blames : Names g n (evalNode g b n values store) := by
  cases hnode : g.node? n with
  | none =>
    simp only [evalNode, hnode]
    exact ⟨rfl, hnode⟩
  | some node =>
    refine (evalNode_spec hnode store).imp (fun fault hcause => ?_) fun _ _ => trivial
    cases fault with
    | deadBlock _ | fellThrough _ | missingNode _ | budgetExhausted _ => exact hcause.elim
    | notAnInt _ _ | notAnArray _ _ | overflow _ | unsupportedDouble _ | negativeIndex _ _ | threw _
    | reachedUnreachable _ | unsupported _ _ => exact hcause
    | _ => exact hcause.1

/-! ## One step -/

/-- The faults of control that does not reach a node. -/
def Strays : RunFault → Prop
  | .deadBlock _ | .fellThrough _ => True
  | _ => False

/-- A run stands in the node list of its block. -/
def Situated (g : Graph) (s : State) : Prop :=
  ∃ block, g.block? s.block = some block ∧ s.node :: s.rest <:+ block.nodes

theorem Situated.after (hs : Situated g s) (effect : Effect) (store : Store) :
    Situated g (s.after effect store) := by
  cases effect <;> exact hs

theorem State.after_steps (s : State) (effect : Effect) (store : Store) :
    (s.after effect store).steps = s.steps + 1 := by
  cases effect <;> rfl

theorem enter_meets (g : Graph) (b : BlockId) (store : Store) (steps : Nat) :
    Meets Strays (fun s => s.steps = steps ∧ Situated g s) (enter g b store steps) := by
  rw [enter]
  split
  · trivial
  · rename_i block hb
    split
    · trivial
    · rename_i n rest hnodes
      exact ⟨rfl, block, hb, by rw [hnodes]⟩

theorem advance_meets (hs : Situated g s) :
    Meets Strays (fun s' => s'.steps = s.steps ∧ Situated g s') (advance g s) := by
  rw [advance]
  split
  · rename_i m rest hrest
    obtain ⟨block, hb, hsuffix⟩ := hs
    exact ⟨rfl, block, hb, (List.suffix_cons s.node _).trans (hrest ▸ hsuffix)⟩
  · split
    · exact enter_meets g _ _ s.steps
    · trivial

/-- What a step leads to: one more node is counted, and a run that goes on stands in a node list. -/
def Counted (g : Graph) (steps : Nat) : Outcome → Prop
  | .running s => s.steps = steps + 1 ∧ Situated g s
  | .returned e => e.steps = steps + 1

/-- **One step** counts one node, and faults over that node or because control strays. -/
theorem step_meets (hs : Situated g s) :
    Meets (fun fault => Blames g s.node fault ∨ Strays fault) (Counted g s.steps) (step g s) := by
  have heval : Names g s.node (evalNode g s.block s.node s.values s.store) := evalNode_blames
  rw [step]
  split
  · rename_i fault hfault
    rw [hfault] at heval
    exact .inl heval
  · rfl
  · rename_i effect store' _ _
    have hadvance := advance_meets (hs.after effect store')
    split
    · rename_i fault hfault
      rw [hfault] at hadvance
      exact .inr hadvance
    · rename_i s' hs'
      rw [hs', s.after_steps] at hadvance
      exact hadvance

theorem situated_of_enter {steps : Nat} (h : enter g b store steps = .ok s) :
    s.steps = steps ∧ Situated g s := by
  have hmeets := enter_meets g b store steps
  rwa [h] at hmeets

theorem steps_of_running {s' : State} (hs : Situated g s) (h : step g s = .ok (.running s')) :
    s'.steps = s.steps + 1 ∧ Situated g s' := by
  have hmeets := step_meets hs
  rwa [h] at hmeets

theorem steps_of_returned {e : Execution} (hs : Situated g s) (h : step g s = .ok (.returned e)) :
    e.steps = s.steps + 1 := by
  have hmeets := step_meets hs
  rwa [h] at hmeets

end Unroller.Machine
