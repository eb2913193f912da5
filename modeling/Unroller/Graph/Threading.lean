import Unroller.Graph.Flow

/-!
# Threading locals through blocks

In threaded form a block starts with one phi per local that it reads before writing it.  The first
read refers to the phi, the phi refers to the last accesses of the local in the predecessors, and
the two snapshots of a block record the phi and the last access of each local.  Threading rebuilds
all of this; leaving threaded form only drops the operands of the phis.

The nodes and phis that are gone over have to exist; `thread` and `requirePhis` stop where one does
not.
-/

namespace Unroller

/-- What threading has found out about a block so far. -/
structure Threaded where
  graph : Graph
  phis : List NodeId
  head : Snapshot
  tail : Snapshot

namespace Graph

/-- Takes the next node of a block into account. -/
def threadNode (s : Threaded) (id : NodeId) : Threaded :=
  match s.graph.node? id with
  | none => s
  | some node =>
    match node.slot?, node.kind with
    | some l, .getLocal =>
      if (s.tail.get? l).isNone then
        let (phi, graph) := s.graph.addNode
          { kind := .phi, payload := .slot l, origin := node.origin, prediction := node.prediction }
        { graph := graph.modifyNode id fun n => { n with children := .one (.untyped phi) }
          phis := s.phis ++ [phi]
          head := s.head.set l (some phi)
          tail := s.tail.set l (some id) }
      else
        { s with
          graph := s.graph.modifyNode id fun n => { n with children := .none }
          tail := s.tail.set l (some id) }
    | some l, .setLocal => { s with tail := s.tail.set l (some id) }
    | _, _ => s

/-- Rebuilds phis and snapshots of one block. -/
def threadBlock (g : Graph) (b : BlockId) : Graph :=
  match g.block? b with
  | none => g
  | some block =>
    let s := block.nodes.foldl threadNode
      { graph := g, phis := [], head := .ofLocals g.locals, tail := .ofLocals g.locals }
    s.graph.modifyBlock b fun block =>
      { block with phis := s.phis, head := s.head, tail := s.tail }

/-- The last accesses of a local in the listed blocks, at most three. -/
def incoming (g : Graph) (preds : List BlockId) (l : Local) : List NodeId :=
  (preds.filterMap fun p => (g.block? p).bind fun block => block.tail.get? l).take 3

/-- Gives a phi the values of its local in the predecessors. -/
def linkPhi (preds : List BlockId) (g : Graph) (phi : NodeId) : Graph :=
  match (g.node? phi).bind Node.slot? with
  | none => g
  | some l =>
    let edges := (g.incoming preds l).map Edge.untyped
    g.modifyNode phi fun n => { n with children := .ofList edges }

/-- Gives the phis of a block their operands. -/
def linkPhis (g : Graph) (b : BlockId) : Graph :=
  match g.block? b with
  | none => g
  | some block => block.phis.foldl (linkPhi block.preds) g

/-- The indices of the blocks marked reachable, in the order of their slots. -/
def reachableIds (g : Graph) : List BlockId :=
  (g.liveBlocks.filter fun e => e.2.flags.reachable).map fun e => e.2.index

/-- Rebuilds the threaded form of all reachable blocks. -/
def threadLocals (g : Graph) : Graph :=
  let g := g.resetReachability
  let ids := g.reachableIds
  let g := ids.foldl threadBlock g
  { ids.foldl linkPhis g with form := .threaded }

/-- Threads the locals, once the nodes that are gone over are known to exist. -/
def thread (g : Graph) : Except Error Graph := do
  let threaded := g.resetReachability
  threaded.require ((threaded.reachableIds).flatMap threaded.nodesOf)
  return g.threadLocals

/-- Stops where a phi that would lose its operands does not exist. -/
def requirePhis (g : Graph) : Except Error Unit :=
  match g.form with
  | .loadStore => .ok ()
  | .threaded => g.require (g.liveBlocks.flatMap fun e => e.2.phis)

/-- Leaves the threaded form: phis lose their operands; phis and snapshots stay. -/
def dethread (g : Graph) : Graph :=
  match g.form with
  | .loadStore => g
  | .threaded =>
    let phis := g.liveBlocks.flatMap fun e => e.2.phis
    { phis.foldl (fun g phi => g.modifyNode phi fun n => { n with children := .none }) g with
      form := .loadStore }

/-- Commits the inserted blocks; the flag tells whether there were any. -/
def commitInsertions (g : Graph) : Bool × Graph :=
  if g.pending = 0 then (false, g)
  else (true, { g with pending := 0 }.invalidate.dethread)

end Graph

end Unroller
