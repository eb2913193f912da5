import Mathlib.Tactic
import Unroller.Proofs.Execution.Body
import Unroller.Proofs.Execution.Stepping
import Unroller.Proofs.Graph.Editing

/-!
# Threaded and load/store form run alike

A run looks at the nodes that blocks run, never at phis, and of a read never at its operands.  So a
rewired graph runs like the old one, step by step, and ends with the same result or the same fault.

* `evalNode_sameNode`: evaluating a node that does the same.
* `step_rewired`, `exec_rewired`, `run_rewired`: one step, all steps, a whole run.
* `run_changesForm`: threading and leaving threaded form, any number of times.
* `run_listedTwice`: not so where a node is listed both as a phi and to be run.
-/

namespace Unroller.Machine

open Unroller.Graph (Rewired SameNode entry)
open Relation

variable {g h : Graph} {b : BlockId} {n : NodeId} {node image : Node}
  {s s' : State}

/-! ## One node -/

/-- A node that does the same has the same effect, in a graph with the same records and
successors. -/
theorem evalNode_sameNode (values : Values) (store : Store) (hnode : g.node? n = some node)
    (himage : h.node? n = some image) (hsame : SameNode node image)
    (hargs : h.varArgs = g.varArgs) (hswitches : h.switches = g.switches)
    (hsucc : ∀ slot, h.successor? b slot = g.successor? b slot) :
    evalNode h b n values store = evalNode g b n values store := by
  have hslot : image.slot? = node.slot? := by rw [Node.slot?, Node.slot?, hsame.payload]
  simp only [evalNode, hnode, himage, hsame.kind]
  rcases hsame.children with hget | hchildren
  · -- a read looks at its local only
    simp only [hget, binary?, evalOther, hsame.kind, hslot]
  · have hchild (i : Nat) : image.child i = node.child i := by
      rw [Node.child, Node.child, hchildren]
    have hoperand : operand values n image = operand values n node := by
      funext i
      rw [operand, operand, hchild]
    have hint : intOperand values n image = intOperand values n node := by
      funext i
      rw [intOperand, intOperand, hoperand]
    have helements : elements h values n image = elements g values n node := by
      rw [elements, elements, Graph.operands, Graph.operands, hchildren, Graph.edgesOf_congr hargs]
    have hconstant : constantValue n image = constantValue n node := by
      rw [constantValue, constantValue, Node.constant?, Node.constant?, hsame.payload, hsame.kind]
    simp only [evalOther, hsame.kind, hsame.payload, hslot, hchild, hoperand, hint, helements,
      hconstant, hswitches, hsucc]

/-! ## Steps -/

theorem enter_rewired (hr : Rewired g h) (b : BlockId) (store : Store) (steps : Nat) :
    enter h b store steps = enter g b store steps := by
  have hnodes := hr.nodes b
  rw [enter, enter]
  cases hb : g.block? b with
  | none =>
    rw [hb, Option.map_none, Option.map_eq_none_iff] at hnodes
    rw [hnodes]
  | some block =>
    rw [hb, Option.map_some] at hnodes
    obtain ⟨copy, hcopy, hlist⟩ := Option.map_eq_some_iff.1 hnodes
    simp only [hcopy, hlist]

theorem advance_rewired (hr : Rewired g h) (s : State) : advance h s = advance g s := by
  rw [advance, advance]
  cases s.rest with
  | nil => simp only [enter_rewired hr]
  | cons n rest => rfl

/-- **One step** from within a node list is the same. -/
theorem step_rewired (hr : Rewired g h) (hg : g.Arranged) (hs : Situated g s) :
    step h s = step g s := by
  obtain ⟨block, hb, hsuffix⟩ := hs
  have hruns : g.Runs s.block s.node := ⟨block, hb, hsuffix.subset List.mem_cons_self⟩
  obtain ⟨node, hnode⟩ := hg.exists_node hruns
  obtain ⟨image, himage, hsame⟩ := hr.node s.block s.node node hruns hnode
  have heval := evalNode_sameNode s.values s.store hnode himage hsame
    hr.varArgs hr.switches (hr.successor?_eq hg s.block)
  simp only [step, heval, advance_rewired hr]

/-- **All steps.** -/
theorem exec_rewired (hr : Rewired g h) (hg : g.Arranged) (budget : Nat) (hs : Situated g s) :
    exec h budget s = exec g budget s := by
  induction budget generalizing s with
  | zero => rfl
  | succ budget ih =>
    rw [exec, exec, step_rewired hr hg hs]
    cases hstep : step g s with
    | error fault => rfl
    | ok outcome =>
      cases outcome with
      | returned e => rfl
      | running s' => exact ih (steps_of_running hs hstep).2

/-- **A rewired graph runs alike.** -/
theorem run_rewired (hr : Rewired g h) (hg : g.Arranged) (store : Store) (budget : Nat) :
    run h store budget = run g store budget := by
  rw [run, run, enter_rewired hr]
  cases henter : enter g entry store 0 with
  | error fault => rfl
  | ok s => exact exec_rewired hr hg budget (situated_of_enter henter).2

/-! ## Changes of form -/

/-- A graph is threaded, or leaves threaded form. -/
inductive ChangesForm : Graph → Graph → Prop where
  | threadLocals {g : Graph} : ChangesForm g g.threadLocals
  | dethread {g : Graph} : ChangesForm g g.dethread

theorem rewired_of_changesForm (hg : g.Arranged) (hforms : ReflTransGen ChangesForm g h) :
    Rewired g h := by
  induction hforms with
  | refl => exact .refl g
  | tail _ hform ih =>
    refine ih.trans ?_
    cases hform with
    | threadLocals => exact Graph.rewired_threadLocals (ih.arranged hg)
    | dethread => exact Graph.rewired_dethread (ih.arranged hg)

/-- A block that lists one node as a phi and runs it too; no operation lists a node again. -/
def listedTwice : Graph :=
  { name := "", function := none, locals := 0, form := .threaded
    blocks := #[some { phis := [1], nodes := [0, 1, 2] }]
    nodes := #[{ kind := .jsConstant, payload := .constant (.int32 5) },
      { kind := .arithNegate, children := .one (.untyped 0) },
      { kind := .ret, children := .one (.untyped 1) }] }

/-- Such a graph runs otherwise once it has left threaded form: its phis have lost their
operands. -/
theorem run_listedTwice :
    run listedTwice {} 10 = .ok ⟨.int32 (-5), #[], #[], 3⟩ ∧
      run listedTwice.dethread {} 10 = .error (.lacksOperand 1 0) := by
  decide +kernel

end Unroller.Machine
