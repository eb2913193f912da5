import Unroller.Cloning
import Unroller.Config
import Unroller.Loop.Rejection

/-!
# Measuring a loop body

The body scan checks that every node may be duplicated and counts what the body consists of.
`BodyStats.profitable` then decides whether duplicating it pays.  A node is *material* when it
generates code.
-/

namespace Unroller

/-- What a loop body consists of. -/
structure BodyStats where
  /-- The blocks that are not pads. -/
  blocks : Nat := 0
  /-- The nodes that generate code. -/
  material : Nat := 0
  arrayStores : Nat := 0
  arrayLoads : Nat := 0
  /-- The numeric operations and constants. -/
  numeric : Nat := 0
  localAccesses : Nat := 0
deriving DecidableEq, Inhabited

namespace BodyStats

/-- A share of a whole as a floating-point number, zero of nothing. -/
def share (part whole : Nat) : Float :=
  if whole = 0 then 0 else (UInt64.ofNat part).toFloat / (UInt64.ofNat whole).toFloat

/-- The share of numeric nodes. -/
def numericShare (s : BodyStats) : Float := share s.numeric s.material

/-- The share of accesses to locals. -/
def localShare (s : BodyStats) : Float := share s.localAccesses s.material

/-- Whether the body writes arrays and never reads them. -/
def isStoreDominated (s : BodyStats) : Bool := 0 < s.arrayStores && s.arrayLoads == 0

/-- Whether the body is a single block of more than 160 and fewer than `maxSize` nodes, more than
three tenths of them numeric and more than four tenths accesses to locals. -/
def isNumericHot (s : BodyStats) (maxSize : Nat) : Bool :=
  s.blocks == 1 && decide (s.numericShare > 0.3) && decide (s.localShare > 0.4)
    && 160 < s.material && s.material < maxSize

/-- Whether unrolling a body pays; `full` says that the trip count is known. -/
def profitable (s : BodyStats) (full : Bool) (config : UnrollConfig) : Except Rejection Unit :=
  if !full && (!config.enablePartial || config.requireFull || config.partialCopies < 2) then
    .error .partialUnrollDisabled
  else if s.isNumericHot config.maxNumericSize then .ok ()
  else if config.bodySizeLimit full < s.material then
    .error (.bodyTooLarge s.material (config.bodySizeLimit full))
  else if s.isStoreDominated then .error .storeDominated
  else .ok ()

end BodyStats

namespace Graph

/-- Whether a node generates code: markers only do when they have operands. -/
def isMaterial (g : Graph) (node : Node) : Bool :=
  !node.kind.isZeroCost && !(node.kind.isBookkeeping && (g.operandEdges node).isEmpty)

end Graph

/-- Whether a node computes numbers; a generic constant does when its value is a number. -/
def Node.isNumeric (node : Node) : Bool :=
  node.kind.isNumeric || (node.kind == .jsConstant && node.constant?.any Constant.isNumber)

/-- The body scan so far. -/
structure BodyScan where
  stats : BodyStats := {}
  scan : Scan := {}
deriving DecidableEq, Inhabited

namespace BodyScan

/-- Counts a node. -/
def count (g : Graph) (s : BodyStats) (node : Node) : BodyStats where
  blocks := s.blocks
  material := s.material + if g.isMaterial node then 1 else 0
  arrayStores := s.arrayStores + if node.kind.isArrayStore then 1 else 0
  arrayLoads := s.arrayLoads + if node.kind.isArrayLoad then 1 else 0
  numeric := s.numeric + if node.isNumeric then 1 else 0
  localAccesses := s.localAccesses + if node.kind.isLocalAccess then 1 else 0

/-- Checks and counts a node; more than `limit` material nodes end the scan. -/
def node (g : Graph) (limit : Option Nat) (s : BodyScan) (n : NodeId) :
    Except Refusal BodyScan :=
  match g.node? n with
  | none => .error (.stopped (.missingNode n))
  | some node =>
    if node.kind.isDenylisted then .error (.rejected (.denylisted node.kind))
    else
      match s.scan.check g n with
      | .error e => .error (.stopped e)
      | .ok (false, _) => .error (.rejected (.uncloneable node.kind))
      | .ok (true, scan) =>
        let stats := count g s.stats node
        match limit with
        | some limit =>
          if g.isMaterial node && limit < stats.material then
            .error (.rejected (.bodyTooLarge stats.material limit))
          else .ok ⟨stats, scan⟩
        | none => .ok ⟨stats, scan⟩

/-- Checks and counts a block; pads are passed over. -/
def block (g : Graph) (limit : Option Nat) (s : BodyScan) (b : BlockId) :
    Except Refusal BodyScan :=
  match g.block? b with
  | none => .error (.rejected (.unreachableBlock b))
  | some block =>
    if block.flags.edgePad then .ok s
    else if !block.flags.reachable then .error (.rejected (.unreachableBlock b))
    else
      block.nodes.foldlM (node g limit) { s with stats.blocks := s.stats.blocks + 1 }

/-- Measures a body, giving up above `limit` material nodes when there is a limit. -/
def measure (g : Graph) (limit : Option Nat) (blocks : List BlockId) :
    Except Refusal BodyStats :=
  (blocks.foldlM (block g limit) {}).map BodyScan.stats

end BodyScan

namespace Graph

/-- Checks and measures the body of a loop, giving up above the larger of the two sizes that bound
fully unrolled and numeric bodies.  The limit for partial unrolling has no part in it. -/
def bodyStats (g : Graph) (loop : NaturalLoop) (config : UnrollConfig) :
    Except Refusal BodyStats :=
  BodyScan.measure g (some (max config.maxFullBodySize config.maxNumericSize)) loop.blocks

end Graph

end Unroller
