import Unroller.Graph.Threading

/-!
# Copying a region of a graph

A copy of a block is a new block with copies of its phis and nodes, in which every operand is the
copy of the source's operand and every record is one of its own.  Copying a block copies everything
it leads to as well, unless a hook, which is handed each copy once its nodes exist, says that it has
seen to the copy's successors itself.

1. `Scan.check` decides beforehand whether a node and all it uses can be copied.  Phis can: they are
   copied with their block.
2. `Cloning.block` and `Cloning.node` copy within a session, which remembers each copy made.
3. `Cloning.finalize` commits the new blocks and removes what became unreachable.

A failed copy leaves the graph as far as it got.
-/

namespace Unroller

/-! ## What can be copied -/

/-- The verdicts of a scan so far, and the nodes it is in the middle of. -/
structure Scan where
  verdicts : List (NodeId × Bool) := []
  /-- The nodes on the path of operands being followed. -/
  visiting : List NodeId := []
deriving DecidableEq, Inhabited

namespace Scan

/-- Records a verdict. -/
def record (s : Scan) (n : NodeId) (verdict : Bool) : Scan :=
  { s with verdicts := (n, verdict) :: s.verdicts }

/-- Tests nodes in order until one fails. -/
def all (test : Scan → NodeId → Except Error (Bool × Scan)) :
    Scan → List NodeId → Except Error (Bool × Scan)
  | s, [] => .ok (true, s)
  | s, n :: rest => do
    match ← test s n with
    | (true, s) => all test s rest
    | (false, s) => return (false, s)

/-- Follows the operands of a node at most `fuel` deep.  With `assertions`, coming back to a node on
the path stops the library. -/
def checkFrom (g : Graph) (assertions : Bool) :
    (fuel : Nat) → Scan → NodeId → Except Error (Bool × Scan)
  | 0, s, _ => .ok (false, s)
  | fuel + 1, s, n =>
    match s.verdicts.lookup n with
    | some verdict => .ok (verdict, s)
    | none => do
      let node ← g.node n
      match node.kind.cloneStrategy with
      | .preCloned => return (true, s.record n true)
      | .unsupported => return (false, s.record n false)
      | .common | .special _ =>
        if s.visiting.contains n then
          if assertions then throw (.operandCycle n) else return (false, s)
        else
          let (verdict, t) ←
            all (checkFrom g assertions fuel) { s with visiting := n :: s.visiting }
              (g.operands node)
          return (verdict, { t with visiting := t.visiting.erase n }.record n verdict)

/-- Whether a node and all that it uses can be copied.  A node that uses itself, however indirectly,
cannot.  A path of distinct nodes is no longer than the graph has nodes.

A build with `assertions` asserts that no query comes upon such a circle; a build without them,
which is what the rest of the library takes, gives the answer. -/
def check (g : Graph) (s : Scan) (n : NodeId) (assertions : Bool := false) :
    Except Error (Bool × Scan) :=
  checkFrom g assertions (g.nodes.size + 1) s n

end Scan

/-! ## Sessions -/

/-- A graph with the copies made in it. -/
structure Session where
  graph : Graph
  /-- Nodes with their copies, latest first. -/
  nodeCopies : List (NodeId × NodeId) := []
  /-- Blocks with their copies, latest first. -/
  blockCopies : List (BlockId × BlockId) := []
  /-- The blocks handed to the hook with their copies, in order. -/
  offered : List (BlockId × BlockId) := []
deriving Inhabited

/-- A computation in a session that may fail midway. -/
abbrev Cloning := EStateM Error Session

/-- Is given a source block and its copy, may edit the graph, and says whether it has seen to the
copy's successors. -/
abbrev Hook := BlockId → BlockId → EStateM Error Graph Bool

/-- The hook that leaves everything to the copying. -/
def Hook.none : Hook := fun _ _ => pure false

namespace Session

/-- The copy of a block made in this session. -/
def blockCopy (s : Session) (b : BlockId) : Except Violation BlockId :=
  match s.blockCopies.lookup b with
  | some copy => .ok copy
  | none => .error (.neverCloned b)

/-- The copy of a node made in this session. -/
def nodeCopy? (s : Session) (n : NodeId) : Option NodeId := s.nodeCopies.lookup n

/-- Forgets all copies. -/
def clear (s : Session) : Session := { graph := s.graph }

/-- Commits the new blocks, recomputes reachability and removes what is unreachable. -/
def finalize (s : Session) : List BlockId × Session :=
  let (committed, graph) := s.graph.commitInsertions
  let graph := if committed then graph else graph.invalidate.dethread
  let (killed, graph) := graph.resetReachability.killUnreachable
  (killed, { s with graph := graph })

end Session

/-! ## How far copying can go -/

namespace Graph

/-- At least the number of edges in a graph: three per node, and those of the variadic nodes. -/
def edgeBound (g : Graph) : Nat := 3 * g.nodes.size + g.varArgs.size

/-- At least the number of slots in a graph: one per node, and those of the records. -/
def slotBound (g : Graph) : Nat :=
  g.switches.foldl (fun slots r => slots + r.cases.length + 1)
    (g.nodes.size + 2 * g.branches.size)

end Graph

namespace Cloning

/-- Runs a change of the graph that also has a result. -/
def onGraph {α : Type} (change : Graph → α × Graph) : Cloning α := fun s =>
  let (result, graph) := change s.graph
  .ok result { s with graph := graph }

/-- Runs a change of the graph that may fail before it changes anything. -/
def tryGraph {ε α : Type} (wrap : ε → Error) (change : Graph → Except ε (α × Graph)) :
    Cloning α := fun s =>
  match change s.graph with
  | .ok (result, graph) => .ok result { s with graph := graph }
  | .error e => .error (wrap e) s

/-- A copy of the record that a payload names, of the sort that `shape` asks for. -/
def record (n : NodeId) (shape : RecordShape) (payload : Payload) : Cloning Payload := do
  let g := (← get).graph
  let missing : Cloning Payload := throw (.violation (.noRecord n shape payload))
  match shape, payload with
  | .branchTargets, .branch r =>
    match g.branches[r]? with
    | some data => return .branch (← onGraph (·.addBranch data))
    | none => missing
  | .switchTable, .switch r =>
    match g.switches[r]? with
    | some data => return .switch (← onGraph (·.addSwitch data))
    | none => missing
  | .callVarargs, .callVarargs r =>
    match g.callLayouts[r]? with
    | some data => return .callVarargs (← onGraph (·.addCallLayout data))
    | none => missing
  | .loadVarargs, .loadVarargs r =>
    match g.loadLayouts[r]? with
    | some data => return .loadVarargs (← onGraph (·.addLoadLayout data))
    | none => missing
  | _, _ => missing

/-- The payload of a copy. -/
def payload (n : NodeId) (node : Node) : Cloning Payload :=
  match node.kind.cloneStrategy with
  | .special shape => record n shape node.payload
  | _ => pure node.payload

/-- The copy of an edge; an empty edge stays empty. -/
def edge (copy : NodeId → Cloning NodeId) (e : Edge) : Cloning Edge :=
  match e.node? with
  | some n => return e.withNode (← copy n)
  | none => return .empty

/-- The copies of the operands of a node.  Variadic copies make a new range. -/
def children (copy : NodeId → Cloning NodeId) (c : Children) : Cloning Children := do
  match c with
  | .fixed a b c => return .fixed (← edge copy a) (← edge copy b) (← edge copy c)
  | .variadic first count =>
    let copies ← ((← get).graph.varArgRange first count).mapM (edge copy)
    let start := (← get).graph.varArgs.size
    copies.forM fun e => do discard (onGraph (·.addVarArg e))
    return .variadic start count

/-- Copies a node into a block, its operands first, following them at most `fuel` deep. -/
def nodeFrom (target : BlockId) : (fuel : Nat) → NodeId → Cloning NodeId
  | 0, _ => throw .endlessCopy
  | fuel + 1, n => do
    match (← get).nodeCopy? n with
    | some copy => return copy
    | none =>
      match (← get).graph.node? n with
      | none => throw (.missingNode n)
      | some node =>
        match node.kind.cloneStrategy with
        | .preCloned => throw (.violation (.phiCloned n node.kind))
        | .unsupported => throw (.violation (.notCloneable n node.kind))
        | .common | .special _ =>
          let children ← children (nodeFrom target fuel) node.children
          let payload ← payload n node
          let copy ← tryGraph .defect
            (·.appendNode target { node with children := children, payload := payload })
          modify fun s => { s with nodeCopies := (n, copy) :: s.nodeCopies }
          return copy

/-- Copies a node into a block, its operands first.  A path of operands stays among the nodes there
were when it began, until it follows an edge that named a position before a node was there.  Where
operands lead in a circle, copying is given up. -/
def node (target : BlockId) (n : NodeId) : Cloning NodeId := do
  let g := (← get).graph
  nodeFrom target ((g.nodes.size + 1) * (g.edgeBound + 1)) n

/-- Copies a phi into the phis of a block, without its operands. -/
def phi (target : BlockId) (n : NodeId) : Cloning Unit := do
  match (← get).graph.node? n with
  | none => throw (.missingNode n)
  | some node =>
    let copy ← tryGraph .defect (·.appendPhi target { node with children := .none })
    modify fun s => { s with nodeCopies := (n, copy) :: s.nodeCopies }

/-- The snapshot of a copy: every recorded node is replaced by its copy. -/
def snapshot (source : BlockId) (operands : Snapshot) : Cloning Snapshot := do
  operands.entries.foldlM
    (fun (acc : Snapshot) (e : Local × NodeId) => do
      match (← get).nodeCopy? e.2 with
      | some copy => return acc.set e.1 (some copy)
      | none => throw (.violation (.foreignSnapshot e.1 source e.2)))
    (Snapshot.ofLocals operands.size)

/-- Adds the block that is to be the copy of `source`, without nodes. -/
def freshBlock (source : BlockId) (block : Block) : Cloning BlockId := do
  let copy ← onGraph (·.insertBlock block.executionCount)
  let flags : BlockFlags := { edgePad := block.flags.edgePad, excludedFromSize := true }
  onGraph fun g => ((), g.modifyBlock copy fun b => { b with flags := flags })
  modify fun s => { s with blockCopies := (source, copy) :: s.blockCopies }
  return copy

/-- Fills the copy of a block with phis, nodes and snapshots. -/
def fill (source copy : BlockId) (block : Block) : Cloning Unit := do
  block.phis.forM (phi copy)
  block.nodes.forM fun n => do discard (node copy n)
  let head ← snapshot source block.head
  let tail ← snapshot source block.tail
  onGraph fun g => ((), g.modifyBlock copy fun b => { b with head := head, tail := tail })

/-- Hands a copy to the hook. -/
def offer (hook : Hook) (source copy : BlockId) : Cloning Bool := fun s =>
  let offered := s.offered ++ [(source, copy)]
  match hook source copy s.graph with
  | .ok handled graph => .ok handled { s with graph := graph, offered := offered }
  | .error e graph => .error e { s with graph := graph, offered := offered }

/-- Points the successors of a copy at the copies of the source's successors. -/
def successors (copyBlock : BlockId → Cloning BlockId) (source copy : BlockId) : Cloning Unit := do
  (List.range ((← get).graph.successorCount source)).forM fun slot => do
    match (← get).graph.successor? source slot with
    | none => throw (.violation (.lostSuccessorSlot source slot))
    | some successor =>
      let target ← copyBlock successor
      tryGraph .violation fun g => (g.setSuccessor copy slot target).map fun g => ((), g)

/-- Copies a block and what it leads to, at most `fuel` blocks deep. -/
def blockFrom (hook : Hook) : (fuel : Nat) → BlockId → Cloning BlockId
  | 0, _ => throw .endlessCopy
  | fuel + 1, source => do
    match (← get).blockCopies.lookup source with
    | some copy => return copy
    | none =>
      match (← get).graph.block? source with
      | none => throw (.violation (.cloneOfMissing source))
      | some block =>
        let copy ← freshBlock source block
        fill source copy block
        if !(← offer hook source copy) then successors (blockFrom hook fuel) source copy
        return copy

/-- Copies a block and, where the hook leaves it to the copying, everything it leads to.  Of the
blocks that are not there yet, the hook sees only to those before position `reach`.

A path of blocks stays among those not copied when it began, until it follows a slot that named a
position before a block was there or that the hook has set.  As each copy is itself not copied,
there are never more such blocks than at the start.  Only where blocks share a record of targets can
copying go on for ever; it is given up then. -/
def block (hook : Hook) (source : BlockId) (reach : Nat := 0) : Cloning BlockId := do
  let g := (← get).graph
  blockFrom hook ((g.blocks.size + 1) * (g.blocks.size + g.slotBound + reach + 1)) source

/-- Forgets all copies. -/
def clear : Cloning Unit := modify Session.clear

/-- Commits the new blocks, and lists the blocks that became unreachable and were removed. -/
def finalize : Cloning (List BlockId) := fun s =>
  match s.graph.requirePhis with
  | .error e => .error e s
  | .ok () =>
    let (killed, s) := s.finalize
    .ok killed s

end Cloning

end Unroller
