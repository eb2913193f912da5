import Unroller.Graph.Flow

/-!
# Structural validity

`defects` lists every place where a graph breaks a structural rule, in the order in which they are
looked for; a graph is valid when there is none, and `validate` reports the first.  The rules:

* slot 0 is live, and every block is in the slot of its index;
* every listed node exists and is listed once; phi lists hold phis, node lists none;
* a block is not empty, its last node ends it, and no other does; a pad holds one node;
* every node carries the sort of payload its kind asks for, and its record exists;
* an operand of a node is a phi of the same block or stands earlier in the same list; an operand of
  a phi is listed in some live block;
* every successor slot names a live block.
-/

namespace Unroller.Graph

/-! ## Placement -/

/-- The nodes that live blocks list, with their blocks: for each block its phis, then its nodes. -/
def listed (g : Graph) : List (BlockId × NodeId) :=
  g.liveBlocks.flatMap fun e => (e.2.phis ++ e.2.nodes).map fun n => (e.1, n)

/-- Nodes of a block that do not exist or were listed before; `seen` has a mark for each listed
node. -/
def listingDefects (b : BlockId) (seen : Array Bool) : List NodeId → List Defect
  | [] => []
  | n :: rest =>
    match seen[n]? with
    | none => .unknownListed b n :: listingDefects b seen rest
    | some true => .placedTwice n :: listingDefects b seen rest
    | some false => listingDefects b (seen.setIfInBounds n true) rest

/-- Blocks in the slot of another index, and nodes that do not exist or are listed twice. -/
def placementDefects (seen : Array Bool) : List (BlockId × Block) → List Defect
  | [] => []
  | (b, block) :: rest =>
    let nodes := block.phis ++ block.nodes
    (if block.index = b then [] else [.wrongSlot block.index])
      ++ listingDefects b seen nodes
      ++ placementDefects (nodes.foldl (fun seen n => seen.setIfInBounds n true) seen) rest

/-- For each node, whether a live block lists it. -/
def placed (g : Graph) : Array Bool :=
  g.listed.foldl (fun seen e => seen.setIfInBounds e.2 true) (Array.replicate g.nodes.size false)

/-- Whether a node exists and is a phi. -/
def isPhi (g : Graph) (n : NodeId) : Bool := (g.node? n).any fun node => node.kind == .phi

/-- Listed nodes in the wrong one of the two lists of a block. -/
def phiDefects (g : Graph) (b : BlockId) (block : Block) : List Defect :=
  ((block.phis.filter fun n => !g.isPhi n).map fun n => .notAPhi b n)
    ++ ((block.nodes.filter fun n => g.isPhi n).map fun n => .phiAmongNodes b n)

/-! ## Payloads -/

/-- Whether a node of a kind may carry a payload, and the record it names exists. -/
def admits (g : Graph) (kind : Kind) (payload : Payload) : Bool :=
  match kind, payload with
  | .jump, .jump _ => true
  | .branch, .branch r => r < g.branches.size
  | .switch, .switch r => r < g.switches.size
  | .callVarargs, .callVarargs r => r < g.callLayouts.size
  | .loadVarargs, .loadVarargs r => r < g.loadLayouts.size
  | .varargsLength, .loadVarargs r => r < g.loadLayouts.size
  | .forwardVarargs, .loadVarargs r => r < g.loadLayouts.size
  | .jump, _ | .branch, _ | .switch, _ | .callVarargs, _ | .loadVarargs, _
  | .varargsLength, _ => false
  | kind, .slot _ => kind.hasLocal
  | kind, .constant _ => kind.isConstant
  | kind, .bare | kind, .property _ => !kind.hasLocal
  | _, _ => false

/-! ## Operands -/

/-- Operands of a node that do not exist or that it cannot see. -/
def operandDefects (g : Graph) (n : NodeId) (node : Node) (visible : NodeId → Bool) :
    List Defect :=
  (match node.children with
    | .variadic first count => if g.varArgs.size < first + count then [.variadicRange n] else []
    | .fixed .. => [])
    ++ (g.operands node).filterMap fun c =>
      if g.nodes.size ≤ c then some (.unknownOperand n c)
      else if visible c then none
      else some (.unavailableOperand n c)

/-- What is wrong with one node of a block; `earlier` lists what it can see. -/
def nodeDefects (g : Graph) (b : BlockId) (earlier : List NodeId) (n : NodeId) (isLast : Bool) :
    List Defect :=
  match g.node? n with
  | none => []
  | some node =>
    (if node.kind.isTerminal == isLast then []
      else if isLast then [.noTerminal b n node.kind]
      else [.earlyTerminal b n node.kind])
    ++ (if g.admits node.kind node.payload then [] else [.wrongPayload n node.kind node.payload])
    ++ g.operandDefects n node earlier.contains

/-- What is wrong with the nodes of a block, given what the first of them can see. -/
def listDefects (g : Graph) (b : BlockId) (earlier : List NodeId) : List NodeId → List Defect
  | [] => []
  | n :: rest =>
    g.nodeDefects b earlier n rest.isEmpty ++ listDefects g b (n :: earlier) rest

/-! ## Blocks -/

/-- What is wrong with the successor slots of a block. -/
def successorDefects (g : Graph) (b : BlockId) : List Defect :=
  (List.range (g.successorCount b)).filterMap fun slot =>
    match g.successor? b slot with
    | some target => if g.isLive target then none else some (.deadSuccessor b slot target)
    | none => some (.unsetSuccessor b slot)

/-- What is wrong inside a block; `placed` marks the nodes that live blocks list. -/
def blockDefects (g : Graph) (placed : Array Bool) (b : BlockId) (block : Block) : List Defect :=
  if block.nodes.isEmpty then [.emptyBlock b]
  else
    g.listDefects b block.phis block.nodes
    ++ (block.phis.flatMap fun n =>
      match g.node? n with
      | some node => g.operandDefects n node fun c => placed.getD c false
      | none => [])
    ++ (if block.flags.edgePad && block.nodes.length != 1 then [.crowdedPad b] else [])
    ++ g.successorDefects b

/-- Every place where the graph breaks a rule, in the order of the search. -/
def defects (g : Graph) : List Defect :=
  (if g.isLive entry then [] else [.noEntry])
    ++ placementDefects (Array.replicate g.nodes.size false) g.liveBlocks
    ++ (g.liveBlocks.flatMap fun e => g.phiDefects e.1 e.2)
    ++ g.liveBlocks.flatMap fun e => g.blockDefects g.placed e.1 e.2

/-- Reports the first defect. -/
def validate (g : Graph) : Except Defect Unit :=
  match g.defects with
  | [] => .ok ()
  | d :: _ => .error d

end Unroller.Graph
