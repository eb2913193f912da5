import Mathlib.Tactic
import Unroller.Execution.Machine
import Unroller.Proofs.Results

/-!
# What one node does

Evaluation has a case for each kind of node, and most of what is to be shown of it would have to go
through all of them.  They are gone through once, here.

* `Cause`: why a node faults.  Every fault of a node names that node.
* `Yields`: what a node gives otherwise, and what becomes of the store.
* `evalNode_spec`: evaluation faults and ends in these ways only.
-/

namespace Unroller

/-- Kinds that are evaluated without a value: writes, checks, markers and hints, phis among them. -/
def Kind.isSilent : Kind → Bool
  | .setLocal | .putByVal | .putByValDirect | .check => true
  | kind => kind.isBookkeeping || kind.isZeroCost

namespace Machine

variable {g : Graph} {b : BlockId} {n : NodeId} {node : Node} {values : Values} {store : Store}

/-! ## Faults -/

/-- Why a node faults.  Where the reason is in the values, as with an overflow, it says no more than
that the fault is about this node. -/
def Cause (g : Graph) (b : BlockId) (n : NodeId) (node : Node) (values : Values) :
    RunFault → Prop
  | .deadBlock _ | .fellThrough _ | .missingNode _ | .budgetExhausted _ => False
  | .lacksOperand m i => m = n ∧ (node.child i).node? = none
  | .noValue c m => m = n ∧ (∃ i, (node.child i).node? = some c) ∧ values.lookup c = none
  | .elementWithoutValue m => m = n ∧ ∃ c ∈ g.operands node, values.lookup c = none
  | .noLocal m => m = n ∧ (node.kind = .getLocal ∨ node.kind = .setLocal) ∧ node.slot? = none
  | .noTarget m => m = n ∧ node.kind = .jump ∧ ∀ t, node.payload ≠ .jump t
  | .noSuccessor m slot => m = n ∧ node.kind = .branch ∧ slot < 2 ∧ g.successor? b slot = none
  | .noSwitchTable m => m = n ∧ node.kind = .switch ∧ ∀ r, node.payload ≠ .switch r
  | .danglingSwitchTable m => m = n ∧ node.kind = .switch ∧
    ∃ r, node.payload = .switch r ∧ g.switches[r]? = none
  | .notAnInt m _ | .notAnArray m _ | .overflow m | .unsupportedDouble m | .negativeIndex m _
  | .threw m | .reachedUnreachable m | .unsupported m _ => m = n

/-- A computation whose faults have a cause in the node. -/
abbrev Caused {α : Type} (g : Graph) (b : BlockId) (n : NodeId) (node : Node) (values : Values)
    (x : Except RunFault α) : Prop :=
  Meets (Cause g b n node values) (fun _ => True) x

theorem caused_operand (i : Nat) : Caused g b n node values (operand values n node i) := by
  rw [operand]
  split
  case h_1 hi => exact ⟨rfl, hi⟩
  case h_2 c hc =>
    split
    · trivial
    case h_2 hnone => exact ⟨rfl, ⟨i, hc⟩, hnone⟩

theorem caused_intOperand (i : Nat) : Caused g b n node values (intOperand values n node i) := by
  refine .bind (caused_operand i) fun v => ?_
  cases v <;> trivial

theorem caused_arrayOperand (v : Value) : Caused g b n node values (arrayOperand store n v) := by
  cases v with
  | array a =>
    simp only [arrayOperand]
    split <;> trivial
  | _ => rfl

theorem caused_elements : Caused g b n node values (elements g values n node) := by
  refine Meets.mapM fun c hc => ?_
  split
  · trivial
  case h_2 hnone => exact ⟨rfl, c, hc, hnone⟩

theorem caused_orOverflow (v? : Option Int32) : Caused g b n node values (orOverflow n v?) := by
  cases v? <;> trivial

theorem caused_constantValue : Caused g b n node values (constantValue n node) := by
  rw [constantValue]
  split <;> trivial

theorem caused_apply (op : Binary) (x y : Int32) : Caused g b n node values (op.apply n x y) := by
  cases op with
  | checked f => exact caused_orOverflow _
  | total _ | test _ => trivial

/-! ## Effects -/

/-- What a node gives, and what becomes of the store. -/
inductive Yields (g : Graph) (b : BlockId) (n : NodeId) (node : Node) (values : Values)
    (store : Store) : Effect → Store → Prop where
  | value (v : Value) (plain : node.kind.isTerminal = false ∧ node.kind.isSilent = false) :
    Yields g b n node values store (.value v) store
  | quiet (plain : node.kind.isTerminal = false ∧ node.kind.isSilent = true) :
    Yields g b n node values store .quiet store
  | written (l : Local) (v : Value) (kind : node.kind = .setLocal) (slot : node.slot? = some l)
    (operand : operand values n node 0 = .ok v) :
    Yields g b n node values store .quiet (store.setLocal l v)
  | created (elements : Array Value) (kind : node.kind = .newArray) :
    Yields g b n node values store (.value (store.addArray elements).1) (store.addArray elements).2
  | loaded (id : Nat) (index : Int32) (kind : node.kind = .getByVal) :
    Yields g b n node values store (.value (store.load id index).1) (store.load id index).2
  | stored (id : Nat) (index : Int32) (v : Value)
    (kind : node.kind = .putByVal ∨ node.kind = .putByValDirect) (natural : 0 ≤ index.toInt) :
    Yields g b n node values store .quiet (store.put id index v)
  | goto (t : BlockId) (slot : Nat) (kind : node.kind.isTerminal = true)
    (target : g.slotTarget? node.payload slot = some t ∨ g.successor? b slot = some t) :
    Yields g b n node values store (.goto t) store
  | done (v : Value) (kind : node.kind = .ret) :
    Yields g b n node values store (.done v) store

theorem exists_slotTarget?_case {record : Nat} {r : SwitchRecord} {c : SwitchCase}
    (hr : g.switches[record]? = some r) (hc : c ∈ r.cases) :
    ∃ slot, g.slotTarget? (.switch record) slot = some c.target.block := by
  obtain ⟨slot, hslot, rfl⟩ := List.mem_iff_getElem.1 hc
  exact ⟨slot, by simp [Graph.slotTarget?, hr, SwitchRecord.target?, hslot]⟩

theorem slotTarget?_fallThrough {record : Nat} {r : SwitchRecord}
    (hr : g.switches[record]? = some r) :
    g.slotTarget? (.switch record) r.cases.length = some r.fallThrough.block := by
  simp [Graph.slotTarget?, hr, SwitchRecord.target?]

theorem isSilent_of_hint {kind : Kind} (h : (kind.isBookkeeping || kind.isZeroCost) = true) :
    kind.isTerminal = false ∧ kind.isSilent = true := by
  cases kind <;> simp_all [Kind.isBookkeeping, Kind.isZeroCost, Kind.isTerminal, Kind.isSilent]

/-- A computation that faults for a cause in the node, or ends in what the node can give. -/
abbrev Behaves (g : Graph) (b : BlockId) (n : NodeId) (node : Node) (values : Values)
    (store : Store) (x : Except RunFault (Effect × Store)) : Prop :=
  Meets (Cause g b n node values) (fun out => Yields g b n node values store out.1 out.2) x

theorem evalOther_spec : Behaves g b n node values store (evalOther g b n node values store) := by
  have hop (i : Nat) : Caused g b n node values (operand values n node i) := caused_operand i
  have hint (i : Nat) : Caused g b n node values (intOperand values n node i) :=
    caused_intOperand i
  have harray (v : Value) : Caused g b n node values (arrayOperand store n v) :=
    caused_arrayOperand v
  have hvalue (hk : node.kind.isTerminal = false ∧ node.kind.isSilent = false) (v : Value) :
      Behaves g b n node values store (.ok (.value v, store)) := .value v hk
  unfold evalOther
  simp only
  split
  case h_1 hk => exact caused_constantValue.bind (hvalue (hk ▸ ⟨rfl, rfl⟩))
  case h_2 hk =>
    split
    · exact hvalue (hk ▸ ⟨rfl, rfl⟩) _
    case h_2 hslot => exact ⟨rfl, .inl hk, hslot⟩
  case h_3 hk =>
    split
    case h_1 l hslot =>
      cases hv : operand values n node 0 with
      | error fault =>
        have hfault := hop 0
        rwa [hv] at hfault
      | ok v => exact .written l v hk hslot hv
    case h_2 hslot => exact ⟨rfl, .inr hk, hslot⟩
  case h_4 hk =>
    exact (hint 0).bind fun _ => (caused_orOverflow _).bind (hvalue (hk ▸ ⟨rfl, rfl⟩))
  case h_5 hk => exact (hint 0).bind fun _ => hvalue (hk ▸ ⟨rfl, rfl⟩) _
  case h_6 hk | h_7 hk =>
    exact (hop 0).bind fun _ => (hop 1).bind fun _ => hvalue (hk ▸ ⟨rfl, rfl⟩) _
  case h_8 hk => exact (hop 0).bind fun _ => hvalue (hk ▸ ⟨rfl, rfl⟩) _
  case h_9 hk => exact caused_elements.bind fun xs => .created xs.toArray hk
  case h_10 hk =>
    exact (hop 0).bind fun v => (harray v).bind fun _ =>
      (caused_orOverflow _).bind (hvalue (hk ▸ ⟨rfl, rfl⟩))
  case h_11 hk =>
    exact (hop 0).bind fun v => (harray v).bind fun id => (hint 1).bind fun index =>
      .loaded id index hk
  case h_12 hk | h_13 hk =>
    refine (hop 0).bind fun v => (harray v).bind fun id => (hint 1).bind fun index =>
      (hop 2).bind fun v => ?_
    split
    · rfl
    · rename_i hindex
      exact .stored id index v (by simp [hk]) (Int.not_lt.1 hindex)
  case h_14 hk =>
    split
    case h_1 target hp => exact .goto target 0 (hk ▸ rfl) (.inl (by simp [hp, Graph.slotTarget?]))
    case h_2 hp => exact ⟨rfl, hk, hp⟩
  case h_15 hk =>
    refine (hop 0).bind fun v => ?_
    split
    case h_1 t ht => exact .goto t _ (hk ▸ rfl) (.inr ht)
    case h_2 hnone => exact ⟨rfl, hk, by split <;> omega, hnone⟩
  case h_16 hk =>
    refine (hint 0).bind fun v => ?_
    split
    case h_1 record hp =>
      split
      case h_1 r hr =>
        split
        case h_1 c hc =>
          obtain ⟨i, hi⟩ := exists_slotTarget?_case hr (List.mem_of_find?_eq_some hc)
          exact .goto _ i (hk ▸ rfl) (.inl (hp ▸ hi))
        case h_2 => exact .goto _ _ (hk ▸ rfl) (.inl (hp ▸ slotTarget?_fallThrough hr))
      case h_2 hr => exact ⟨rfl, hk, record, hp, hr⟩
    case h_2 hp => exact ⟨rfl, hk, hp⟩
  case h_17 hk =>
    split
    · exact (hop 0).bind fun v => .done v hk
    · exact .done _ hk
  case h_18 | h_19 => rfl
  case h_20 hk => exact .quiet (hk ▸ ⟨rfl, rfl⟩)
  case h_21 =>
    split
    case isTrue hhint => exact .quiet (isSilent_of_hint hhint)
    case isFalse => rfl

theorem plain_of_binary {kind : Kind} {op : Binary} (h : binary? kind = some op) :
    kind.isTerminal = false ∧ kind.isSilent = false := by
  cases kind <;> simp [binary?] at h <;> exact ⟨rfl, rfl⟩

/-- **One node** faults for a cause that it shows, or gives what its kind can give. -/
theorem evalNode_spec (hnode : g.node? n = some node) (store : Store) :
    Behaves g b n node values store (evalNode g b n values store) := by
  simp only [evalNode, hnode]
  split
  case h_1 op hop =>
    exact (caused_intOperand 0).bind fun x => (caused_intOperand 1).bind fun y =>
      (caused_apply op x y).bind fun v => .value v (plain_of_binary hop)
  case h_2 => exact evalOther_spec

theorem yields_of_evalNode {effect : Effect} {store' : Store} (hnode : g.node? n = some node)
    (h : evalNode g b n values store = .ok (effect, store')) :
    Yields g b n node values store effect store' := by
  have hspec : Behaves g b n node values store (evalNode g b n values store) :=
    evalNode_spec hnode store
  rwa [h] at hspec

end Machine

end Unroller
