import Unroller.Graph.Basic

/-!
# Control flow of a graph

Where a block leads is read off the payload of its last node, slot by slot: the target of a jump;
the taken, then the not-taken target of a branch; the cases of a switch in order, then its
fall-through.  Editing a slot does not touch the predecessor lists or the kept analyses.

* `setSuccessor` and `convertToJump` edit where a block leads;
* `resetReachability` recomputes reachability flags and predecessor lists, `killUnreachable` then
  empties the slots of unreachable blocks;
* `dominatorTree` and `loopForest` are the kept analyses, or fresh ones when none are kept.
-/

namespace Unroller

namespace SwitchRecord

/-- The target in a slot: a case, or the fall-through after the last case. -/
def target? (r : SwitchRecord) (slot : Nat) : Option Target :=
  match r.cases[slot]? with
  | some c => some c.target
  | none => if slot = r.cases.length then some r.fallThrough else none

/-- Points a slot at another block. -/
def setTarget (r : SwitchRecord) (slot : Nat) (target : BlockId) : SwitchRecord :=
  if slot = r.cases.length then { r with fallThrough := { r.fallThrough with block := target } }
  else
    { r with cases := r.cases.modify slot fun c =>
        { c with target := { c.target with block := target } } }

end SwitchRecord

namespace BranchRecord

/-- The target in a slot: taken, then not taken. -/
def target? (r : BranchRecord) (slot : Nat) : Option Target :=
  match slot with
  | 0 => some r.taken
  | 1 => some r.notTaken
  | _ => none

/-- Points a slot at another block. -/
def setTarget (r : BranchRecord) (slot : Nat) (target : BlockId) : BranchRecord :=
  if slot = 0 then { r with taken := { r.taken with block := target } }
  else { r with notTaken := { r.notTaken with block := target } }

end BranchRecord

namespace Graph

/-! ## Reading successors -/

/-- The last node of a live block together with its position, if it ends blocks. -/
def terminalNode? (g : Graph) (b : BlockId) : Option (NodeId × Node) := do
  let block ← g.block? b
  let last ← block.nodes.getLast?
  let node ← g.node? last
  if node.kind.isTerminal then some (last, node) else none

/-- The last node of a live block, if it ends blocks. -/
def terminal? (g : Graph) (b : BlockId) : Option NodeId := (g.terminalNode? b).map fun e => e.1

/-- The number of slots a payload has. -/
def slotCount (g : Graph) : Payload → Nat
  | .jump _ => 1
  | .branch _ => 2
  | .switch record =>
    match g.switches[record]? with
    | some r => r.cases.length + 1
    | none => 0
  | _ => 0

/-- The block that a slot of a payload names. -/
def slotTarget? (g : Graph) (p : Payload) (slot : Nat) : Option BlockId :=
  match p with
  | .jump target => if slot = 0 then some target else none
  | .branch record => do
    let r ← g.branches[record]?
    (r.target? slot).map Target.block
  | .switch record => do
    let r ← g.switches[record]?
    (r.target? slot).map Target.block
  | _ => none

/-- The number of successor slots of a block. -/
def successorCount (g : Graph) (b : BlockId) : Nat :=
  match g.terminalNode? b with
  | some (_, node) => g.slotCount node.payload
  | none => 0

/-- The block in a successor slot. -/
def successor? (g : Graph) (b : BlockId) (slot : Nat) : Option BlockId :=
  match g.terminalNode? b with
  | some (_, node) => g.slotTarget? node.payload slot
  | none => none

/-- The successors of a block in the order of their slots. -/
def successors (g : Graph) (b : BlockId) : List BlockId :=
  match g.terminalNode? b with
  | some (_, node) => (List.range (g.slotCount node.payload)).filterMap (g.slotTarget? node.payload)
  | none => []

/-- The block slots with the successor relation. -/
def flow (g : Graph) : Digraph := ⟨g.blocks.size, g.successors⟩

/-! ## Editing successors -/

/-- Points a successor slot of a block at another block. -/
def setSuccessor (g : Graph) (b : BlockId) (slot : Nat) (target : BlockId) :
    Except Violation Graph :=
  match g.terminalNode? b with
  | none => .error (.noTerminal b)
  | some (id, node) =>
    if (g.slotTarget? node.payload slot).isNone then .error (.noSuccessorSlot b slot)
    else
      match node.payload with
      | .branch record =>
        .ok { g with branches := g.branches.modify record fun r => r.setTarget slot target }
      | .switch record =>
        .ok { g with switches := g.switches.modify record fun r => r.setTarget slot target }
      | _ => .ok (g.modifyNode id fun n => { n with payload := .jump target })

/-- Replaces the last node of a block by a jump.  What the old node tested is kept alive by a
phantom before the jump. -/
def convertToJump (g : Graph) (b : BlockId) (target : BlockId) : Except Violation Graph :=
  match g.terminalNode? b with
  | none => .error (.noTerminal b)
  | some (id, node) =>
    if node.kind = .jump then
      .ok (g.modifyNode id fun n => { n with payload := .jump target })
    else
      let (jump, g) := g.addNode { kind := .jump, payload := .jump target, origin := node.origin }
      let condition := node.child 0
      let (kept, g) :=
        if condition.isSet then
          let (phantom, g) :=
            g.addNode { kind := .phantom, children := .one condition, origin := node.origin }
          ([phantom], g)
        else ([], g)
      .ok (g.modifyBlock b fun block =>
        { block with nodes := block.nodes.dropLast ++ kept ++ [jump] })

/-! ## Kept analyses -/

/-- The kept dominator tree, or a fresh one. -/
def dominatorTree (g : Graph) : DominatorTree :=
  match g.dominatorCache with
  | some tree => tree
  | none => g.flow.dominatorTree entry

/-- Keeps the dominator tree. -/
def cacheDominators (g : Graph) : Graph := { g with dominatorCache := some g.dominatorTree }

/-- The kept loop forest, or a fresh one for the dominator tree. -/
def loopForest (g : Graph) : LoopForest :=
  match g.loopCache with
  | some forest => forest
  | none => g.flow.loopForest g.dominatorTree entry

/-- Keeps the loop forest, and the dominator tree it was made from. -/
def cacheLoops (g : Graph) : Graph :=
  match g.loopCache with
  | some _ => g
  | none =>
    let g := g.cacheDominators
    { g with loopCache := some g.loopForest }

/-- Forgets the kept analyses. -/
def invalidate (g : Graph) : Graph := { g with dominatorCache := none, loopCache := none }

/-! ## Reachability -/

/-- The predecessors of a block as last computed. -/
def predecessors (g : Graph) (b : BlockId) : List BlockId :=
  match g.block? b with
  | some block => block.preds
  | none => []

/-- Forgets reachability and predecessors of all blocks. -/
def clearReachability (g : Graph) : Graph :=
  { g with blocks := g.blocks.map fun slot => slot.map fun block =>
      { block with flags := { block.flags with reachable := false }, preds := [] } }

/-- Records that `source` leads to `target`, once. -/
def addPredecessor (g : Graph) (source target : BlockId) : Graph :=
  g.modifyBlock target fun block =>
    if block.preds.contains source then block else { block with preds := block.preds ++ [source] }

/-- Records that a block is reachable, and its edges. -/
def markReachable (g : Graph) (b : BlockId) : Graph :=
  ((g.successors b).foldl (fun g target => g.addPredecessor b target) g).modifyBlock b
    fun block => { block with flags := { block.flags with reachable := true } }

/-- Recomputes reachability and predecessors from the entry. -/
def resetReachability (g : Graph) : Graph :=
  let g := g.clearReachability
  if g.isLive entry then (g.flow.pushOrder entry).foldl markReachable g else g

/-- The indices of the live blocks not marked reachable, in the order of their slots. -/
def unreachableIds (g : Graph) : List BlockId :=
  (g.liveBlocks.filter fun e => !e.2.flags.reachable).map fun e => e.2.index

/-- Empties the slots of the blocks not marked reachable, and lists the indices of these blocks. -/
def killUnreachable (g : Graph) : List BlockId × Graph :=
  let killed := g.unreachableIds
  if killed.isEmpty then ([], g)
  else
    let blocks := g.blocks.map fun slot => slot.filter fun block => block.flags.reachable
    (killed, { g with blocks := blocks }.invalidate)

end Graph

end Unroller
