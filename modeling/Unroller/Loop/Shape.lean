import Unroller.Loop.Body
import Unroller.Loop.Induction

/-!
# The shape of a loop that can be unrolled

One block, the pre-header, enters the header from outside; one block, the tail, leads back to it and
is the only one that leaves the loop, by a branch.  Pads are looked through: a pad with a single
predecessor stands for the block before it.
-/

namespace Unroller

/-- The bottom of a loop. -/
structure LoopTail where
  tail : BlockId
  /-- Where the tail leaves the loop to. -/
  next : BlockId
  /-- The successor slot of the tail that stays in the loop. -/
  inLoopSlot : Nat
deriving DecidableEq, Inhabited

/-- All that is known about a loop that is to be unrolled. -/
structure LoopShape where
  header : BlockId
  preHeader : BlockId
  tail : BlockId
  next : BlockId
  inLoopSlot : Nat
  /-- The loop goes on while the comparison is false. -/
  inverse : Bool
  induction : InductionVariable
  /-- How often the body runs, when that is known. -/
  iterations : Option Nat
  body : BodyStats
deriving DecidableEq, Inhabited

namespace LoopShape

/-- Whether the loop goes away altogether. -/
def isFull (s : LoopShape) : Bool := s.iterations.isSome

/-- The successor slot of the tail that leaves the loop. -/
def exitSlot (s : LoopShape) : Nat := 1 - s.inLoopSlot

end LoopShape

namespace Graph

/-- The block before a pad with a single predecessor, at most `fuel` pads back. -/
def skipPads (g : Graph) : (fuel : Nat) → BlockId → BlockId
  | 0, b => b
  | fuel + 1, b =>
    match g.block? b with
    | some block =>
      if block.flags.edgePad then
        match block.preds with
        | [single] => skipPads g fuel single
        | _ => b
      else b
    | none => b

/-- The blocks that lead to a header from inside or from outside its loop, pads looked through. -/
def enteringBlocks (g : Graph) (header : BlockId) (inLoop : Bool) : List BlockId :=
  let preds := (g.predecessors header).filter fun p =>
    g.dominatorTree.dominates header p == inLoop
  (preds.map (g.skipPads g.blocks.size)).eraseDups

/-- The block that enters a loop. -/
def preHeader (g : Graph) (loop : NaturalLoop) : Except Rejection BlockId :=
  match g.enteringBlocks loop.header false with
  | [b] => .ok b
  | found => .error (.noPreHeader found.length)

/-- The first block of a loop other than the tail that leads out of it. -/
def earlyExit? (g : Graph) (loop : NaturalLoop) (tail : BlockId) : Option BlockId :=
  loop.blocks.find? fun b => b != tail && (g.successors b).any fun s => !loop.contains s

/-- Whether a block ends in a branch. -/
def endsInBranch (g : Graph) (b : BlockId) : Bool :=
  (g.terminalNode? b).any fun e => e.2.kind == .branch

/-- The bottom of a loop. -/
def loopTail (g : Graph) (loop : NaturalLoop) : Except Rejection LoopTail :=
  match g.enteringBlocks loop.header true with
  | [tail] =>
    match g.earlyExit? loop tail with
    | some b => .error (.multipleExits b)
    | none =>
      if !g.endsInBranch tail then .error .tailNotBranch
      else
        match g.successor? tail 0, g.successor? tail 1 with
        | some taken, some notTaken =>
          match loop.contains taken, loop.contains notTaken with
          | true, false => .ok ⟨tail, notTaken, 0⟩
          | false, true => .ok ⟨tail, taken, 1⟩
          | _, _ => .error .tailNotBranch
        | _, _ => .error .tailNotBranch
  | found => .error (.noUniqueTail found.length)

/-- Everything that unrolling a loop takes, or the first reason not to. -/
def loopShape (g : Graph) (config : UnrollConfig) (loop : NaturalLoop) :
    Except Refusal LoopShape := do
  let preHeader ← Refusal.rejecting (g.preHeader loop)
  let bottom ← Refusal.rejecting (g.loopTail loop)
  let (induction, inverse) ←
    g.inductionVariable loop preHeader bottom.tail (bottom.inLoopSlot == 1)
  let iterations ← induction.tripCount inverse config.maxIterations
  let body ← g.bodyStats loop config
  Refusal.rejecting (body.profitable iterations.isSome config)
  return { header := loop.header, preHeader := preHeader, tail := bottom.tail
           next := bottom.next, inLoopSlot := bottom.inLoopSlot, inverse := inverse
           induction := induction, iterations := iterations, body := body }

end Graph

end Unroller
