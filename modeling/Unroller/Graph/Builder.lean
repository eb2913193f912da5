import Unroller.Graph.Threading
import Unroller.Graph.Validity

/-!
# Building graphs

A builder adds nodes to a current block and numbers their origins.  A mistake is remembered, the
first one only, and reported by `finish`, which then checks the graph and threads its locals; the
node of a mistaken call still gets a position.

The graph can be analyzed while it is under construction.  What is kept then stays as it is while
the graph goes on growing, and `finish` does not forget it.
-/

namespace Unroller

/-- A graph under construction. -/
structure Builder where
  graph : Graph := {}
  /-- The block nodes are added to. -/
  current : Option BlockId := none
  /-- The origin of the next node. -/
  nextOrigin : Nat := 0
  /-- The first mistake. -/
  defect : Option Defect := none
deriving Inhabited

/-- The prediction a new node starts with. -/
def Prediction.initial (kind : Kind) (payload : Payload) : Prediction :=
  match kind, payload with
  | .jsConstant, .constant (.int32 _) => .int32
  | .jsConstant, .constant (.double _) => .double
  | .jsConstant, .constant (.boolean _) => .boolean
  | .doubleConstant, _ | .doubleRep, _ => .double
  | .arithAdd, _ | .arithSub, _ | .arithMul, _ | .arithDiv, _ | .arithMod, _ | .arithNegate, _
  | .bitAnd, _ | .bitOr, _ | .bitXor, _ | .bitLShift, _ | .bitRShift, _ | .bitURShift, _
  | .valueToInt32, _ | .getArrayLength, _ => .int32
  | .compareLess, _ | .compareLessEq, _ | .compareGreater, _ | .compareGreaterEq, _
  | .compareEq, _ | .compareStrictEq, _ | .logicalNot, _ => .boolean
  | .newArray, _ => .array
  | .makeRope, _ | .strCat, _ | .toString, _ => .string
  | _, _ => .empty

namespace Builder

/-- A builder for a function with `locals` locals. -/
def start (locals : Nat) (name : String) (function : Option FunctionHash) : Builder :=
  { graph := { name := name, function := function, locals := locals } }

/-- Remembers a mistake, unless there is one already. -/
def fail (b : Builder) (d : Defect) : Builder :=
  { b with defect := b.defect.or (some d) }

/-- Adds a block. -/
def block (b : Builder) (executionCount : Float) : BlockId × Builder :=
  let (id, graph) := b.graph.addBlock executionCount
  (id, { b with graph := graph })

/-- Makes a block the current one, even if there is no such block. -/
def switchTo (b : Builder) (target : BlockId) : Builder :=
  let b := if b.graph.isLive target then b else b.fail (.switchToUnknown target)
  { b with current := some target }

/-- Adds a node to the current block. -/
def node (b : Builder) (kind : Kind) (children : Children) (payload : Payload) :
    NodeId × Builder :=
  let n : Node :=
    { kind := kind, children := children, payload := payload, origin := b.nextOrigin
      prediction := .initial kind payload }
  let b := { b with nextOrigin := b.nextOrigin + 1 }
  let placed : Except Defect (NodeId × Graph) :=
    match b.current with
    | none => .error (.noBlockSelected kind)
    | some target => b.graph.appendNode target n
  match placed with
  | .ok (id, graph) => (id, { b with graph := graph })
  | .error d =>
    let (id, graph) := b.graph.addNode n
    (id, { b.fail d with graph := graph })

/-- Adds a node with variadic operands. -/
def variadic (b : Builder) (kind : Kind) (edges : List Edge) : NodeId × Builder :=
  let first := b.graph.varArgs.size
  let graph := edges.foldl (fun g e => (g.addVarArg e).2) b.graph
  { b with graph := graph }.node kind (.variadic first edges.length) .bare

/-- Adds a constant. -/
def constant (b : Builder) (value : Constant) : NodeId × Builder :=
  b.node .jsConstant .none (.constant value)

/-- Adds a read of a local. -/
def getLocal (b : Builder) (l : Local) : NodeId × Builder := b.node .getLocal .none (.slot l)

/-- Adds a write of a local. -/
def setLocal (b : Builder) (l : Local) (value : Edge) : NodeId × Builder :=
  b.node .setLocal (.one value) (.slot l)

/-- Adds a node with one operand. -/
def unary (b : Builder) (kind : Kind) (operand : Edge) : NodeId × Builder :=
  b.node kind (.one operand) .bare

/-- Adds a node with two operands. -/
def binary (b : Builder) (kind : Kind) (left right : Edge) : NodeId × Builder :=
  b.node kind (.two left right) .bare

/-- Adds a load of an array element. -/
def load (b : Builder) (base index : Edge) : NodeId × Builder := b.binary .getByVal base index

/-- Adds a store to an array element. -/
def store (b : Builder) (base index value : Edge) : NodeId × Builder :=
  b.node .putByVal (.fixed base index value) .bare

/-- Adds a call with spread arguments. -/
def callVarargs (b : Builder) (callee this arguments : Edge) : NodeId × Builder :=
  let (record, graph) := b.graph.addCallLayout ⟨0⟩
  { b with graph := graph }.node .callVarargs (.fixed callee this arguments) (.callVarargs record)

/-- Adds a node that loads spread arguments, or counts them. -/
def loadVarargs (b : Builder) (kind : Kind) (arguments : Edge) (layout : LoadVarargs) :
    NodeId × Builder :=
  let (record, graph) := b.graph.addLoadLayout layout
  { b with graph := graph }.node kind (.one arguments) (.loadVarargs record)

/-- Ends the current block with a jump. -/
def jump (b : Builder) (target : BlockId) : NodeId × Builder := b.node .jump .none (.jump target)

/-- Ends the current block with a branch. -/
def branch (b : Builder) (condition : Edge) (taken notTaken : BlockId) : NodeId × Builder :=
  let (record, graph) := b.graph.addBranch ⟨{ block := taken }, { block := notTaken }⟩
  { b with graph := graph }.node .branch (.one condition) (.branch record)

/-- Ends the current block with a switch. -/
def switch (b : Builder) (scrutinee : Edge) (cases : List (Int32 × BlockId))
    (fallThrough : BlockId) : NodeId × Builder :=
  let (record, graph) := b.graph.addSwitch
    ⟨cases.map fun c => ⟨c.1, { block := c.2 }⟩, { block := fallThrough }⟩
  { b with graph := graph }.node .switch (.one scrutinee) (.switch record)

/-- Ends the current block with a return. -/
def ret (b : Builder) (value : Edge) : NodeId × Builder := b.node .ret (.one value) .bare

/-- Adds a pad that jumps to a block; the current block stays the same. -/
def edgePad (b : Builder) (target : BlockId) : BlockId × Builder :=
  let (pad, graph) := b.graph.addBlock 1
  let graph := graph.modifyBlock pad fun block =>
    { block with flags := { block.flags with edgePad := true } }
  let jumped := ({ b with graph := graph, current := some pad }.jump target).2
  (pad, { jumped with current := b.current })

/-- Asks the graph so far for its dominator tree. -/
def analyzeDominators (b : Builder) : Builder := { b with graph := b.graph.cacheDominators }

/-- Asks the graph so far for its loops. -/
def analyzeLoops (b : Builder) : Builder := { b with graph := b.graph.cacheLoops }

/-- The finished graph, or the first mistake, or the first defect. -/
def finish (b : Builder) : Except Defect Graph :=
  match b.defect with
  | some d => .error d
  | none =>
    match b.graph.validate with
    | .error d => .error d
    | .ok () => .ok b.graph.threadLocals

end Builder

end Unroller
