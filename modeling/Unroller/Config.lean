import Unroller.AllowList

/-!
# Settings of the unroller

The sizes count the nodes of a loop body that generate code.  `conservative` only fully unrolls
small innermost loops; `aggressive` doubles the limits.
-/

namespace Unroller

/-- How much code unrolling may duplicate, and in which functions. -/
structure UnrollConfig where
  /-- The number of loops unrolled in one graph. -/
  maxUnrolledLoops : Nat := 2
  /-- The largest body that is fully unrolled. -/
  maxFullBodySize : Nat := 120
  /-- The largest body that is partially unrolled. -/
  maxPartialBodySize : Nat := 60
  /-- Whether loops of unknown trip count are unrolled. -/
  enablePartial : Bool := true
  /-- The number of copies of the body after a partial unroll, the given one included. -/
  partialCopies : Nat := 2
  /-- The largest trip count that is fully unrolled. -/
  maxIterations : UInt32 := 16
  /-- Single-block numeric bodies below this size are accepted above the other limits. -/
  maxNumericSize : Nat := 320
  /-- Whether loops that contain others are left alone. -/
  innermostOnly : Bool := false
  /-- Whether partial unrolling is ruled out. -/
  requireFull : Bool := false
  /-- Whether rejected loops are recorded. -/
  verbose : Bool := false
  /-- Whether the graph is recorded before and after. -/
  dumpGraph : Bool := false
  /-- The functions to unroll in; all when there is no list. -/
  allowList : Option AllowList := none
deriving DecidableEq, Inhabited

namespace UnrollConfig

/-- The usual settings. -/
def default : UnrollConfig := {}

/-- Only full unrolls of small innermost loops. -/
def conservative : UnrollConfig where
  maxUnrolledLoops := 1
  maxFullBodySize := 60
  maxIterations := 8
  enablePartial := false
  innermostOnly := true
  requireFull := true

/-- Larger limits throughout. -/
def aggressive : UnrollConfig where
  maxUnrolledLoops := 8
  maxFullBodySize := 240
  maxPartialBodySize := 120
  partialCopies := 4
  maxIterations := 64
  maxNumericSize := 640

/-- Whether loops of a function may be unrolled.  A function without identity is on no list. -/
def allows (c : UnrollConfig) (function : Option FunctionHash) : Bool :=
  match c.allowList, function with
  | none, _ => true
  | some l, some h => l.contains h
  | some _, none => false

/-- The size limit of a full or a partial unroll. -/
def bodySizeLimit (c : UnrollConfig) (full : Bool) : Nat :=
  if full then c.maxFullBodySize else c.maxPartialBodySize

end UnrollConfig

end Unroller
