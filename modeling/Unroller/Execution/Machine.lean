import Unroller.CheckedInt
import Unroller.Execution.Store
import Unroller.Graph.Flow

/-!
# Running a graph

A run evaluates nodes one by one.  A node sees the values that earlier nodes produced in the same
visit of its block; locals and arrays live on from block to block.  Phis and hints do nothing.

* `evalNode` says what one node does;
* `State` stands at a node about to be evaluated, and `step` evaluates it and moves on: to the next
  node of the block, or to the first node of the block that the last jump named;
* `exec` takes as many steps as its budget allows, and `run` starts at the entry.
-/

namespace Unroller

/-- What the evaluation of a node amounts to. -/
inductive Effect where
  /-- The node has a value. -/
  | value (v : Value)
  /-- The node has no value. -/
  | quiet
  /-- Control goes to a block when the current one is done. -/
  | goto (target : BlockId)
  /-- The function returns. -/
  | done (v : Value)
deriving DecidableEq, Inhabited

/-- The values produced in the current visit of a block, latest first. -/
abbrev Values := List (NodeId × Value)

namespace Machine

/-! ## Operands -/

/-- The value of the `i`th operand of a node. -/
def operand (values : Values) (id : NodeId) (node : Node) (i : Nat) : Except RunFault Value :=
  match (node.child i).node? with
  | none => .error (.lacksOperand id i)
  | some child =>
    match values.lookup child with
    | some v => .ok v
    | none => .error (.noValue child id)

/-- The value of the `i`th operand as an integer; truth values count as one and zero. -/
def intOperand (values : Values) (id : NodeId) (node : Node) (i : Nat) : Except RunFault Int32 := do
  match ← operand values id node i with
  | .int32 v => .ok v
  | .boolean v => .ok (if v then 1 else 0)
  | other => .error (.notAnInt id other)

/-- The number of an existing array. -/
def arrayOperand (store : Store) (id : NodeId) (v : Value) : Except RunFault Nat :=
  match v with
  | .array a => if a < store.arrays.size then .ok a else .error (.notAnArray id v)
  | other => .error (.notAnArray id other)

/-- The values of all operands of a node, in order. -/
def elements (g : Graph) (values : Values) (id : NodeId) (node : Node) :
    Except RunFault (List Value) :=
  (g.operands node).mapM fun child =>
    match values.lookup child with
    | some v => .ok v
    | none => .error (.elementWithoutValue id)

/-- A result that must exist. -/
def orOverflow (id : NodeId) : Option Int32 → Except RunFault Value
  | some v => .ok (.int32 v)
  | none => .error (.overflow id)

/-! ## Arithmetic -/

/-- The lowest five bits of a shift amount. -/
def shiftAmount (n : Int32) : Int32 := n &&& 31

/-- Shifts right, filling with zeros. -/
def shiftRightZero (a n : Int32) : Int32 :=
  (a.toUInt32 >>> (shiftAmount n).toUInt32).toInt32

/-- The result of a binary integer operation. -/
inductive Binary where
  /-- An operation that can overflow. -/
  | checked (op : Int32 → Int32 → Option Int32)
  /-- An operation that always has a result. -/
  | total (op : Int32 → Int32 → Int32)
  /-- A comparison. -/
  | test (op : Int32 → Int32 → Bool)

/-- The integer operation of a kind. -/
def binary? : Kind → Option Binary
  | .arithAdd | .valueAdd => some (.checked add?)
  | .arithSub => some (.checked sub?)
  | .arithMul => some (.checked mul?)
  | .arithDiv => some (.checked div?)
  | .arithMod => some (.checked rem?)
  | .bitAnd => some (.total fun a b => a &&& b)
  | .bitOr => some (.total fun a b => a ||| b)
  | .bitXor => some (.total fun a b => a ^^^ b)
  | .bitLShift => some (.total fun a b => a <<< shiftAmount b)
  | .bitRShift => some (.total fun a b => a >>> shiftAmount b)
  | .bitURShift => some (.total shiftRightZero)
  | .compareLess => some (.test fun a b => decide (a.toInt < b.toInt))
  | .compareLessEq => some (.test fun a b => decide (a.toInt ≤ b.toInt))
  | .compareGreater => some (.test fun a b => decide (b.toInt < a.toInt))
  | .compareGreaterEq => some (.test fun a b => decide (b.toInt ≤ a.toInt))
  | _ => none

/-- Applies a binary integer operation. -/
def Binary.apply (op : Binary) (id : NodeId) (a b : Int32) : Except RunFault Value :=
  match op with
  | .checked f => orOverflow id (f a b)
  | .total f => .ok (.int32 (f a b))
  | .test f => .ok (.boolean (f a b))

/-- The value of a generic constant node. -/
def constantValue (id : NodeId) (node : Node) : Except RunFault Value :=
  match node.constant? with
  | some (.int32 v) => .ok (.int32 v)
  | some (.boolean v) => .ok (.boolean v)
  | some (.double _) => .error (.unsupportedDouble id)
  | some .undefined | some .null | none => .ok .undefined

/-! ## Nodes -/

/-- Evaluates a node of a kind without an integer operation of its own. -/
def evalOther (g : Graph) (block : BlockId) (id : NodeId) (node : Node) (values : Values)
    (store : Store) : Except RunFault (Effect × Store) := do
  let operand := operand values id node
  let int := intOperand values id node
  match node.kind with
  | .jsConstant => return (.value (← constantValue id node), store)
  | .getLocal =>
    match node.slot? with
    | some l => return (.value (store.getLocal l), store)
    | none => .error (.noLocal id)
  | .setLocal =>
    match node.slot? with
    | some l => return (.quiet, store.setLocal l (← operand 0))
    | none => .error (.noLocal id)
  | .arithNegate => return (.value (← orOverflow id (neg? (← int 0))), store)
  | .valueToInt32 => return (.value (.int32 (← int 0)), store)
  | .compareEq | .compareStrictEq =>
    let a ← operand 0
    let b ← operand 1
    return (.value (.boolean (a == b)), store)
  | .logicalNot => return (.value (.boolean (!(← operand 0).isTruthy)), store)
  | .newArray =>
    let (v, store) := store.addArray (← elements g values id node).toArray
    return (.value v, store)
  | .getArrayLength =>
    let a ← arrayOperand store id (← operand 0)
    return (.value (← orOverflow id (fit? (store.arraySize a))), store)
  | .getByVal =>
    let a ← arrayOperand store id (← operand 0)
    let (v, store) := store.load a (← int 1)
    return (.value v, store)
  | .putByVal | .putByValDirect =>
    let a ← arrayOperand store id (← operand 0)
    let index ← int 1
    let v ← operand 2
    if index.toInt < 0 then .error (.negativeIndex id index)
    else return (.quiet, store.put a index v)
  | .jump =>
    match node.payload with
    | .jump target => return (.goto target, store)
    | _ => .error (.noTarget id)
  | .branch =>
    let slot := if (← operand 0).isTruthy then 0 else 1
    match g.successor? block slot with
    | some target => return (.goto target, store)
    | none => .error (.noSuccessor id slot)
  | .switch =>
    let scrutinee ← int 0
    match node.payload with
    | .switch record =>
      match g.switches[record]? with
      | some r =>
        match r.cases.find? fun c => c.value == scrutinee with
        | some c => return (.goto c.target.block, store)
        | none => return (.goto r.fallThrough.block, store)
      | none => .error (.danglingSwitchTable id)
    | _ => .error (.noSwitchTable id)
  | .ret =>
    if (node.child 0).isSet then return (.done (← operand 0), store)
    else return (.done .undefined, store)
  | .raise => .error (.threw id)
  | .unreachable => .error (.reachedUnreachable id)
  | .check => return (.quiet, store)
  | kind =>
    if kind.isBookkeeping || kind.isZeroCost then return (.quiet, store)
    else .error (.unsupported id kind)

/-- Evaluates a node in a block. -/
def evalNode (g : Graph) (block : BlockId) (id : NodeId) (values : Values) (store : Store) :
    Except RunFault (Effect × Store) :=
  match g.node? id with
  | none => .error (.missingNode id)
  | some node =>
    match binary? node.kind with
    | some op => do
      let a ← intOperand values id node 0
      let b ← intOperand values id node 1
      return (.value (← op.apply id a b), store)
    | none => evalOther g block id node values store

/-! ## Steps -/

/-- A run that stands at a node about to be evaluated. -/
structure State where
  block : BlockId
  /-- The node to evaluate. -/
  node : NodeId
  /-- The nodes of the block after it. -/
  rest : List NodeId
  /-- Where the last jump of this visit leads. -/
  next : Option BlockId
  values : Values
  store : Store
  /-- The number of nodes evaluated so far. -/
  steps : Nat
deriving Inhabited

end Machine

/-- The outcome of a run that returned. -/
structure Execution where
  returnValue : Value
  /-- The accesses to array elements, in order. -/
  trace : Array Access
  /-- The arrays at the end. -/
  arrays : Array (Array Value)
  /-- The number of nodes evaluated. -/
  steps : Nat
deriving DecidableEq, Inhabited

namespace Machine

/-- What a step leads to. -/
inductive Outcome where
  | running (s : State)
  | returned (e : Execution)
deriving Inhabited

/-- Enters a block at its first node. -/
def enter (g : Graph) (block : BlockId) (store : Store) (steps : Nat) : Except RunFault State :=
  match g.block? block with
  | none => .error (.deadBlock block)
  | some b =>
    match b.nodes with
    | [] => .error (.fellThrough block)
    | node :: rest => .ok ⟨block, node, rest, none, [], store, steps⟩

/-- Moves on after a node that did not return. -/
def advance (g : Graph) (s : State) : Except RunFault State :=
  match s.rest with
  | node :: rest => .ok { s with node := node, rest := rest }
  | [] =>
    match s.next with
    | some target => enter g target s.store s.steps
    | none => .error (.fellThrough s.block)

/-- Takes the effect of the current node into account. -/
def State.after (s : State) (effect : Effect) (store : Store) : State :=
  let s := { s with store := store, steps := s.steps + 1 }
  match effect with
  | .value v => { s with values := (s.node, v) :: s.values }
  | .goto target => { s with next := some target }
  | .quiet | .done _ => s

/-- Evaluates the current node and moves on. -/
def step (g : Graph) (s : State) : Except RunFault Outcome :=
  match evalNode g s.block s.node s.values s.store with
  | .error fault => .error fault
  | .ok (.done v, store) => .ok (.returned ⟨v, store.trace, store.arrays, s.steps + 1⟩)
  | .ok (effect, store) =>
    match advance g (s.after effect store) with
    | .error fault => .error fault
    | .ok s => .ok (.running s)

/-- Takes at most `budget` steps. -/
def exec (g : Graph) : (budget : Nat) → State → Except RunFault Execution
  | 0, s => .error (.budgetExhausted s.steps)
  | budget + 1, s =>
    match step g s with
    | .error fault => .error fault
    | .ok (.returned e) => .ok e
    | .ok (.running s) => exec g budget s

/-- Runs a graph from its entry on the given locals and arrays. -/
def run (g : Graph) (store : Store) (budget : Nat) : Except RunFault Execution :=
  match enter g Graph.entry store 0 with
  | .error fault => .error fault
  | .ok s => exec g budget s

/-- The budget of a run that sets none. -/
def defaultBudget : Nat := 1000000

end Machine

end Unroller
