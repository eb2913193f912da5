import Unroller.Graph.Node

/-!
# Blocks

A block is a list of nodes run in order, preceded by phis.  Where it leads is read off its last
node; where it is reached from is a cache that a recomputation of reachability fills.

* `Snapshot`: which node holds each local at one point;
* `BlockFlags`: what is known about a block as a whole.
-/

namespace Unroller

/-- The node that holds each local at one point of the program. -/
structure Snapshot where
  slots : Array (Option NodeId) := #[]
deriving DecidableEq, Inhabited, Repr

namespace Snapshot

/-- Nothing recorded, with room for `locals` locals. -/
def ofLocals (locals : Nat) : Snapshot := ⟨Array.replicate locals none⟩

/-- The node recorded for a local. -/
def get? (s : Snapshot) (l : Local) : Option NodeId := s.slots.getD l none

/-- Records a node for a local, or that there is none, making room as needed. -/
def set (s : Snapshot) (l : Local) (n : Option NodeId) : Snapshot :=
  ⟨(s.slots ++ Array.replicate (l + 1 - s.slots.size) none).setIfInBounds l n⟩

/-- The recorded pairs in the order of the locals. -/
def entries (s : Snapshot) : List (Local × NodeId) :=
  s.slots.toList.zipIdx.filterMap fun e => e.1.map fun n => (e.2, n)

/-- The number of locals there is room for. -/
def size (s : Snapshot) : Nat := s.slots.size

/-- Whether nothing is recorded. -/
def isEmpty (s : Snapshot) : Bool := s.slots.all (·.isNone)

/-- Forgets all nodes and keeps the room. -/
def clear (s : Snapshot) : Snapshot := ⟨s.slots.map fun _ => none⟩

end Snapshot

/-- What is known about a block as a whole. -/
structure BlockFlags where
  /-- It was reachable from the entry when reachability was last computed. -/
  reachable : Bool := false
  /-- An abstract evaluation has visited it. -/
  cfaVisited : Bool := false
  /-- It splits an edge and holds nothing but a jump. -/
  edgePad : Bool := false
  /-- It duplicates other code and does not count towards code size. -/
  excludedFromSize : Bool := false
deriving DecidableEq, Inhabited, Repr

namespace BlockFlags

/-- The flags with their names, in the order of their bits. -/
def named (f : BlockFlags) : List (String × Bool) :=
  [("REACHABLE", f.reachable), ("CFA_VISITED", f.cfaVisited), ("SYNTHETIC_EDGE_PAD", f.edgePad),
    ("EXCLUDED_FROM_CODE_SIZE", f.excludedFromSize)]

/-- The names of the flags that are set. -/
def setNames (f : BlockFlags) : List String :=
  (f.named.filter fun e => e.2).map fun e => e.1

/-- The flags with the given names. -/
def ofNames (names : List String) : BlockFlags where
  reachable := names.contains "REACHABLE"
  cfaVisited := names.contains "CFA_VISITED"
  edgePad := names.contains "SYNTHETIC_EDGE_PAD"
  excludedFromSize := names.contains "EXCLUDED_FROM_CODE_SIZE"

/-- The flags as a number, the first flag being the lowest bit. -/
def bits (f : BlockFlags) : Nat :=
  f.named.foldr (fun e n => 2 * n + if e.2 then 1 else 0) 0

/-- The text of the flags. -/
def render (f : BlockFlags) : String := flagsText "BlockFlags" f.setNames

end BlockFlags

/-- A basic block. -/
structure Block where
  /-- The slot that the block was made for.  It is the block's identity: no two blocks of a graph
  have the same, and a block keeps it wherever it is stored. -/
  index : BlockId := 0
  /-- The phis at its head. -/
  phis : List NodeId := []
  /-- The nodes in order; a well-formed block ends in a terminal. -/
  nodes : List NodeId := []
  /-- The blocks that lead here, as last computed. -/
  preds : List BlockId := []
  flags : BlockFlags := {}
  /-- How often the block was executed, by profile. -/
  executionCount : Float := 0
  /-- The locals at its head. -/
  head : Snapshot := {}
  /-- The locals at its end. -/
  tail : Snapshot := {}
deriving Inhabited

namespace Block

/-- The block without nodes, with room for `locals` locals. -/
def ofCount (index : BlockId) (locals : Nat) (executionCount : Float) : Block where
  index := index
  executionCount := executionCount
  head := .ofLocals locals
  tail := .ofLocals locals

end Block

end Unroller
