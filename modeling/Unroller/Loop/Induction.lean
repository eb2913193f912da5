import Unroller.CheckedInt
import Unroller.Graph.Flow
import Unroller.Loop.Rejection

/-!
# Induction variables and trip counts

The exit test of a counted loop compares an updated local with a bound:
`compare (update (read of the local) step) bound`, possibly under a negation.  The local must be
written once before the loop, and once inside it, with the update.

When the initial value and the bound are constants, `InductionVariable.tripCount` runs the variable
through the loop to count how often the body runs.  The test stands at the bottom of the loop, so
the body runs at least once.  The count is tested against a limit.  Below the largest number of 32
bits the limit is met in time; under that one the counter can overflow first, and the library stops.
-/

namespace Unroller

/-- Where an initial value or a bound comes from. -/
inductive ValueSource where
  | constant (value : Int32)
  /-- A node whose value is only known at run time. -/
  | node (id : NodeId)
deriving DecidableEq, Inhabited, Repr

/-- The value, when it is a constant. -/
def ValueSource.constant? : ValueSource → Option Int32
  | .constant value => some value
  | .node _ => none

/-- A variable that controls a loop. -/
structure InductionVariable where
  /-- The local that holds it. -/
  slot : Local
  /-- The node whose value is written back. -/
  update : NodeId
  updateKind : Kind
  /-- The constant operand of the update. -/
  step : Int32
  /-- The comparison that controls the loop. -/
  compare : Kind
  /-- The value before the loop. -/
  initial : ValueSource
  /-- The value compared with. -/
  bound : ValueSource
deriving DecidableEq, Inhabited

namespace InductionVariable

/-- One update of the value. -/
def apply (v : InductionVariable) (value : CheckedInt) : CheckedInt :=
  let step := CheckedInt.ofInt32 v.step
  match v.updateKind with
  | .arithAdd => value.add step
  | .arithSub => value.sub step
  | .arithMul => value.mul step
  | _ => value.div step

/-- The comparison of a value with the bound. -/
@[inline] def test (v : InductionVariable) (value bound : Int32) : Bool :=
  match v.compare with
  | .compareLess => decide (value.toInt < bound.toInt)
  | .compareLessEq => decide (value.toInt ≤ bound.toInt)
  | .compareGreater => decide (bound.toInt < value.toInt)
  | .compareGreaterEq => decide (bound.toInt ≤ value.toInt)
  | _ => value == bound

end InductionVariable

/-! ### Counting iterations -/

/-- A number of iterations. -/
abbrev Trips := UInt32

/-- The largest number of iterations that can be counted. -/
def Trips.last : Trips := 0xffffffff

/-- What one more iteration comes to. -/
inductive Progress where
  /-- The count is known, or given up. -/
  | verdict (outcome : Except Refusal Trips)
  /-- So many iterations are behind, and the variable has this value. -/
  | goesOn (count : Trips) (value : Int32)
deriving Inhabited

namespace Progress

/-- One more iteration, with the given update and exit test. -/
@[inline] def next (update : CheckedInt → CheckedInt) (leaves : Int32 → Bool)
    (limit : UInt32) (count : Trips) (value : Int32) : Progress :=
  if count = Trips.last then .verdict (.error (.stopped .counterOverflow))
  else
    let count := count + 1
    if limit < count then .verdict (.error (.rejected (.tooManyIterations limit.toNat)))
    else
      match (update (.ofInt32 value)).value? with
      | none => .verdict (.error (.rejected .iterationOverflow))
      | some current => if leaves current then .verdict (.ok count) else .goesOn count current

/-- Going on is one iteration more. -/
theorem next_goesOn {update : CheckedInt → CheckedInt} {leaves : Int32 → Bool} {limit : UInt32}
    {count after : Trips} {value current : Int32}
    (h : next update leaves limit count value = .goesOn after current) :
    after.toNat = count.toNat + 1 := by
  unfold next at h
  split at h
  · cases h
  · next hlast =>
    have hlt : count.toNat < 4294967295 := by
      have hne : count.toNat ≠ 4294967295 := fun h => hlast (UInt32.toNat_inj.1 h)
      have := count.toNat_lt
      omega
    simp only at h
    split at h
    · cases h
    · split at h
      · cases h
      · split at h
        · cases h
        · cases h
          rw [UInt32.toNat_add]
          exact Nat.mod_eq_of_lt (by simp; omega)

end Progress

/-- Iterates until there is a verdict. -/
@[specialize] def Trips.verdictFrom (update : CheckedInt → CheckedInt) (leaves : Int32 → Bool)
    (limit : UInt32) (count : Trips) (value : Int32) : Except Refusal Trips :=
  match _h : Progress.next update leaves limit count value with
  | .verdict outcome => outcome
  | .goesOn after value => after |>.verdictFrom update leaves limit value
termination_by Trips.last.toNat - count.toNat
decreasing_by
  have hafter := Progress.next_goesOn _h
  have hlast : after.toNat ≤ Trips.last.toNat := Nat.le_of_lt_succ after.toNat_lt
  omega

namespace InductionVariable

/-- The verdict on a variable that starts with `initial` and is compared with `bound`.  The kind of
the update is looked at once, not in every iteration. -/
def verdict (v : InductionVariable) (inverse : Bool) (bound : Int32) (limit : UInt32)
    (initial : Int32) : Except Refusal Trips :=
  let step := CheckedInt.ofInt32 v.step
  let leaves value := v.test value bound == inverse
  match v.updateKind with
  | .arithAdd => Trips.verdictFrom (fun value => value.add step) leaves limit 0 initial
  | .arithSub => Trips.verdictFrom (fun value => value.sub step) leaves limit 0 initial
  | .arithMul => Trips.verdictFrom (fun value => value.mul step) leaves limit 0 initial
  | _ => Trips.verdictFrom (fun value => value.div step) leaves limit 0 initial

/-- How often the body runs, when that is known beforehand and at most `limit`.  With `inverse` the
loop goes on while the comparison is false. -/
def tripCount (v : InductionVariable) (inverse : Bool) (limit : UInt32) :
    Except Refusal (Option Nat) :=
  match v.initial.constant?, v.bound.constant? with
  | some initial, some bound =>
    (v.verdict inverse bound limit initial).map fun count => some count.toNat
  | _, _ => .ok none

end InductionVariable

namespace Graph

/-- The source of a node's value. -/
def valueSource (g : Graph) (n : NodeId) : ValueSource :=
  match (g.node? n).bind Node.int32? with
  | some value => .constant value
  | none => .node n

/-- The operand of an edge that assumes a 32-bit integer, with its node. -/
def int32Operand? (g : Graph) (e : Edge) : Option (NodeId × Node) :=
  if e.use = .int32 then do
    let n ← e.node?
    let node ← g.node? n
    return (n, node)
  else none

/-- Whether a node writes a local. -/
def isStoreTo (g : Graph) (l : Local) (n : NodeId) : Bool :=
  (g.node? n).any fun node => node.kind == .setLocal && node.slot? == some l

/-- The writes of a local in a block, in order. -/
def storesTo (g : Graph) (b : BlockId) (l : Local) : List NodeId :=
  (g.nodesOf b).filter (g.isStoreTo l)

/-- The first operand of a node. -/
def firstOperand? (g : Graph) (n : NodeId) : Option NodeId :=
  (g.node? n).bind fun node => (node.child 0).node?

/-- The condition of the branch at the end of a block: the node compared, and whether a negation
was taken off. -/
def strippedCondition (g : Graph) (branch : NodeId) : Except Refusal (NodeId × Bool) :=
  match g.firstOperand? branch with
  | none => .error (.rejected .noInductionVariable)
  | some condition => do
    let node ← Refusal.stopping (g.node condition)
    if node.kind = .logicalNot then
      match (node.child 0).node? with
      | none => .error (.rejected .noInductionVariable)
      | some negated => return (negated, true)
    else return (condition, false)

/-- The exit test of a loop, without the values around it. -/
structure ExitTest where
  slot : Local
  update : NodeId
  updateKind : Kind
  step : Int32
  compare : Kind
  bound : NodeId
deriving DecidableEq, Inhabited

/-- The parts of a comparison of an updated local with a bound. -/
def exitTest? (g : Graph) (condition : NodeId) : Option ExitTest := do
  let compare ← g.node? condition
  guard compare.kind.isInductionCompare
  let (update, updateNode) ← g.int32Operand? (compare.child 0)
  let (bound, _) ← g.int32Operand? (compare.child 1)
  guard updateNode.kind.isInductionUpdate
  let (_, read) ← g.int32Operand? (updateNode.child 0)
  let (_, stepNode) ← g.int32Operand? (updateNode.child 1)
  let step ← stepNode.int32?
  guard (read.kind = .getLocal)
  let slot ← read.slot?
  return ⟨slot, update, updateNode.kind, step, compare.kind, bound⟩

/-- The variable that controls a loop, and whether the loop goes on while the comparison is false.
`inverse` says so of the branch itself.  The operands looked at without a test, and the nodes that
the blocks list, have to exist. -/
def inductionVariable (g : Graph) (loop : NaturalLoop) (preHeader tail : BlockId)
    (inverse : Bool) : Except Refusal (InductionVariable × Bool) :=
  match g.terminal? tail with
  | none => .error (.rejected .tailNotBranch)
  | some branch => do
    let (condition, negated) ← g.strippedCondition branch
    Refusal.stopping (g.require [condition])
    match g.exitTest? condition with
    | none => .error (.rejected .noInductionVariable)
    | some test =>
      Refusal.stopping (g.require (g.nodesOf preHeader))
      match g.storesTo preHeader test.slot with
      | [initialStore] =>
        match g.firstOperand? initialStore with
        | none => .error (.rejected .noInductionVariable)
        | some initial =>
          Refusal.stopping (g.require [initial])
          Refusal.stopping (g.require (loop.blocks.flatMap g.nodesOf))
          match loop.blocks.flatMap fun b => g.storesTo b test.slot with
          | [updateStore] =>
            if g.firstOperand? updateStore = some test.update then
              .ok ({ slot := test.slot, update := test.update, updateKind := test.updateKind
                     step := test.step, compare := test.compare
                     initial := g.valueSource initial, bound := g.valueSource test.bound },
                inverse != negated)
            else .error (.rejected (.ambiguousUpdate 1))
          | stores => .error (.rejected (.ambiguousUpdate stores.length))
      | stores => .error (.rejected (.ambiguousInitialValue stores.length))

end Graph

end Unroller
