import Unroller.Digraph.LoopForest
import Unroller.Error
import Unroller.FunctionHash

/-!
# Graphs

A graph owns its blocks, nodes, variadic operands and records; all are named by position and none is
ever renumbered.  A killed block leaves its slot empty.  Blocks that a transformation inserts are
pending until they are committed.  The dominator tree and the loop forest are kept once computed,
and stay as they are until they are invalidated.
-/

namespace Unroller

/-- How a graph represents locals. -/
inductive Form where
  /-- Locals are only read and written. -/
  | loadStore
  /-- Phis and snapshots link the accesses across blocks. -/
  | threaded
deriving DecidableEq, Inhabited, Repr

/-- The name of a form. -/
def Form.name : Form → String
  | .loadStore => "LoadStore"
  | .threaded => "ThreadedCps"

/-- A function in the form of a control-flow graph. -/
structure Graph where
  /-- The name used in dumps. -/
  name : String := ""
  /-- The identity of the function, if known. -/
  function : Option FunctionHash := none
  /-- The number of locals. -/
  locals : Nat := 0
  form : Form := .loadStore
  /-- The block slots; a killed block leaves `none`. -/
  blocks : Array (Option Block) := #[]
  nodes : Array Node := #[]
  /-- The operands of all variadic nodes. -/
  varArgs : Array Edge := #[]
  branches : Array BranchRecord := #[]
  switches : Array SwitchRecord := #[]
  callLayouts : Array CallVarargs := #[]
  loadLayouts : Array LoadVarargs := #[]
  /-- The number of inserted blocks not yet committed. -/
  pending : Nat := 0
  /-- The dominator tree, if it has been computed. -/
  dominatorCache : Option DominatorTree := none
  /-- The loop forest, if it has been computed. -/
  loopCache : Option LoopForest := none
deriving Inhabited

namespace Graph

/-- The block control enters first. -/
def entry : BlockId := 0

/-! ## Blocks -/

/-- The block in a slot, unless it was killed. -/
def block? (g : Graph) (b : BlockId) : Option Block := g.blocks.getD b none

/-- Whether a slot holds a block. -/
def isLive (g : Graph) (b : BlockId) : Bool := (g.block? b).isSome

/-- The live blocks with their positions, in order. -/
def liveBlocks (g : Graph) : List (BlockId × Block) :=
  g.blocks.toList.zipIdx.filterMap fun e => e.1.map fun block => (e.2, block)

/-- The indices of the live blocks, in order. -/
def liveIds (g : Graph) : List BlockId := g.liveBlocks.map fun e => e.2.index

/-- Changes a block, if it is live. -/
def modifyBlock (g : Graph) (b : BlockId) (change : Block → Block) : Graph :=
  { g with blocks := g.blocks.modify b fun slot => slot.map change }

/-- Adds a block without nodes at the end. -/
def addBlock (g : Graph) (executionCount : Float) : BlockId × Graph :=
  let block := Block.ofCount g.blocks.size g.locals executionCount
  (g.blocks.size, { g with blocks := g.blocks.push (some block) })

/-- Adds a block that is pending until it is committed. -/
def insertBlock (g : Graph) (executionCount : Float) : BlockId × Graph :=
  { g with pending := g.pending + 1 }.addBlock executionCount

/-! ## Nodes and variadic operands -/

/-- The node at a position. -/
def node? (g : Graph) (n : NodeId) : Option Node := g.nodes[n]?

/-- The node at a position that is taken for granted. -/
def node (g : Graph) (n : NodeId) : Except Error Node :=
  match g.node? n with
  | some node => .ok node
  | none => .error (.missingNode n)

/-- The nodes that a block lists. -/
def nodesOf (g : Graph) (b : BlockId) : List NodeId :=
  match g.block? b with
  | some block => block.nodes
  | none => []

/-- Stops at the first of the given nodes that does not exist. -/
def require (g : Graph) (nodes : List NodeId) : Except Error Unit :=
  match nodes.find? fun n => (g.node? n).isNone with
  | some n => .error (.missingNode n)
  | none => .ok ()

/-- Changes a node, if it exists. -/
def modifyNode (g : Graph) (n : NodeId) (change : Node → Node) : Graph :=
  { g with nodes := g.nodes.modify n change }

/-- Adds a node that is in no block. -/
def addNode (g : Graph) (n : Node) : NodeId × Graph :=
  (g.nodes.size, { g with nodes := g.nodes.push n })

/-- Adds a node at the end of a live block. -/
def appendNode (g : Graph) (b : BlockId) (n : Node) : Except Defect (NodeId × Graph) :=
  if g.isLive b then
    let (id, g) := g.addNode n
    .ok (id, g.modifyBlock b fun block => { block with nodes := block.nodes ++ [id] })
  else .error (.appendToMissing b)

/-- Adds a node at the end of the phis of a live block. -/
def appendPhi (g : Graph) (b : BlockId) (n : Node) : Except Defect (NodeId × Graph) :=
  if g.isLive b then
    let (id, g) := g.addNode n
    .ok (id, g.modifyBlock b fun block => { block with phis := block.phis ++ [id] })
  else .error (.phiToMissing b)

/-- Adds a variadic operand. -/
def addVarArg (g : Graph) (e : Edge) : Nat × Graph :=
  (g.varArgs.size, { g with varArgs := g.varArgs.push e })

/-- The variadic operands of a range; none unless the whole range exists. -/
def varArgRange (g : Graph) (first count : Nat) : List Edge :=
  if first + count ≤ g.varArgs.size then (g.varArgs.extract first (first + count)).toList else []

/-- All operand edges of some children, empty ones included. -/
def edgesOf (g : Graph) : Children → List Edge
  | .fixed a b c => [a, b, c]
  | .variadic first count => g.varArgRange first count

/-- The operand edges of a node that refer to something. -/
def operandEdges (g : Graph) (n : Node) : List Edge :=
  (g.edgesOf n.children).filter Edge.isSet

/-- The operands of a node. -/
def operands (g : Graph) (n : Node) : List NodeId :=
  (g.edgesOf n.children).filterMap Edge.node?

/-! ## Records -/

/-- Adds a branch record. -/
def addBranch (g : Graph) (r : BranchRecord) : Nat × Graph :=
  (g.branches.size, { g with branches := g.branches.push r })

/-- Adds a switch record. -/
def addSwitch (g : Graph) (r : SwitchRecord) : Nat × Graph :=
  (g.switches.size, { g with switches := g.switches.push r })

/-- Adds the layout of a call with spread arguments. -/
def addCallLayout (g : Graph) (r : CallVarargs) : Nat × Graph :=
  (g.callLayouts.size, { g with callLayouts := g.callLayouts.push r })

/-- Adds the layout of a load of spread arguments. -/
def addLoadLayout (g : Graph) (r : LoadVarargs) : Nat × Graph :=
  (g.loadLayouts.size, { g with loadLayouts := g.loadLayouts.push r })

end Graph

end Unroller
