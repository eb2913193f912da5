import Unroller.Event
import Unroller.Graph.Dump
import Unroller.Loop.Shape

/-!
# The unrolling phase

A phase goes over the loops of a graph, deepest first, and unrolls the first that has the right
shape; then it looks at the loops again, until none is left or its budget is spent.  A loop is
unrolled or rejected once at most.

* **Full unrolling**: a loop that runs `k` times becomes `k` bodies in a row, the one it has first.
* **Partial unrolling**: the body is repeated inside the loop, and every copy keeps its exit test.
-/

namespace Unroller

/-! ## Unrolling one loop -/

/-- The number of copies to make besides the body itself. -/
def LoopShape.extraCopies (s : LoopShape) (config : UnrollConfig) : Nat :=
  match s.iterations with
  | some count => count - 1
  | none => config.partialCopies - 1

/-- Lifts an edit of the graph. -/
def editGraph (edit : Graph → Except Violation Graph) : EStateM Error Graph Unit := fun g =>
  match edit g with
  | .ok g => .ok () g
  | .error e => .error (.violation e) g

/-- Ends the copy of the tail: it leads to the body that follows, and in a loop also out of it. -/
def LoopShape.stitch (s : LoopShape) (following : BlockId) : Hook := fun source copy =>
  if source = s.tail then do
    if s.isFull then editGraph fun g => g.convertToJump copy following
    else
      editGraph fun g => g.setSuccessor copy s.inLoopSlot following
      editGraph fun g => g.setSuccessor copy s.exitSlot s.next
    return true
  else return false

/-- Makes copies of the body, last first; each leads to the one made before it. -/
def LoopShape.copyBodies (s : LoopShape) : (count : Nat) → (following : BlockId) → Cloning BlockId
  | 0, following => return following
  | count + 1, following => do
    Cloning.clear
    let copy ← Cloning.block (s.stitch following) s.header
    s.copyBodies count copy

/-- Unrolls a loop, and lists the blocks that became unreachable and were removed. -/
def LoopShape.unroll (s : LoopShape) (config : UnrollConfig) : Cloning (List BlockId) := do
  let first ← s.copyBodies (s.extraCopies config) (if s.isFull then s.next else s.header)
  Cloning.tryGraph .violation fun g =>
    (if s.isFull then g.convertToJump s.tail first
      else g.setSuccessor s.tail s.inLoopSlot first).map fun g => ((), g)
  Cloning.finalize

/-- Unrolls a loop of a graph. -/
def Graph.unrollLoop (config : UnrollConfig) (s : LoopShape) : EStateM Error Graph (List BlockId) :=
  fun g =>
    match s.unroll config { graph := g } with
    | .ok removed session => .ok removed session.graph
    | .error e session => .error e session.graph

/-! ## The phase -/

/-- The settings of a phase, and the loops it has dealt with. -/
structure Phase where
  config : UnrollConfig
  /-- The headers of the loops unrolled, each once. -/
  unrolled : List BlockId := []
  /-- The headers of the loops rejected, each once. -/
  rejected : List BlockId := []
deriving DecidableEq, Inhabited

namespace Phase

/-- The name of the phase. -/
def name : String := "loop-unrolling"

/-- What the phase does. -/
def description : String := "Unrolls small counted loops by cloning their bodies"

/-- Whether the phase may still unroll a loop. -/
def isEligible (p : Phase) (forest : LoopForest) (loop : NaturalLoop) : Bool :=
  !p.unrolled.contains loop.header && !p.rejected.contains loop.header
    && (!p.config.innermostOnly || !forest.hasInner loop)

/-- A loop with its depth, which has to be known. -/
def withDepth (forest : LoopForest) (loop : NaturalLoop) : Except Error (NaturalLoop × Nat) :=
  match forest.depth loop with
  | some depth => .ok (loop, depth)
  | none => .error .endlessNesting

/-- The loops the phase may still unroll, deepest first, loops of one depth by their numbers. -/
def candidateLoops (p : Phase) (forest : LoopForest) : Except Error (List NaturalLoop) := do
  let deep ← (forest.loops.filter (p.isEligible forest)).mapM (withDepth forest)
  return (deep.mergeSort fun a b => decide (b.2 ≤ a.2)).map fun e => e.1

/-- The headers of the loops the phase may still unroll. -/
def candidates (p : Phase) (g : Graph) : Except Error (List BlockId) :=
  (p.candidateLoops g.loopForest).map fun loops => loops.map fun l => l.header

/-- The events a rejected loop gives rise to. -/
def rejectionEvents (p : Phase) (g : Graph) (header : BlockId) (r : Rejection) : List Event :=
  if p.config.verbose then
    [{ kind := .loopRejected, function := g.function, location := some header, pass := some name
       message := r.check ++ ": " ++ r.message }]
  else []

/-- The events that record the graph. -/
def dumpEvents (p : Phase) (g : Graph) (label : String) : Except Error (List Event) := do
  if p.config.dumpGraph then
    let text ← g.render
    return [{ kind := .info, function := g.function, pass := some name
              message := label ++ ":\n" ++ text }]
  else return []

/-- The events an unrolled loop gives rise to. -/
def unrollEvents (p : Phase) (g : Graph) (s : LoopShape) (removed : List BlockId) : List Event :=
  let unrolled : Event :=
    match s.iterations with
    | some count =>
      { kind := .loopUnrolled, function := g.function, location := some s.header, pass := some name
        message := toString count ++ " iterations of " ++ toString s.body.material
          ++ " nodes flattened" }
    | none =>
      { kind := .loopPartiallyUnrolled, function := g.function, location := some s.header
        pass := some name
        message := "body of " ++ toString s.body.material ++ " nodes repeated "
          ++ toString p.config.partialCopies ++ " times" }
  unrolled :: removed.map fun b =>
    { kind := .blockRemoved, function := g.function, location := some b, pass := some name
      message := "unreachable after unrolling" }

end Phase

/-- A phase at work on a graph. -/
structure Compilation where
  phase : Phase
  graph : Graph
  log : EventLog
deriving Inhabited

namespace Compilation

/-- Records events. -/
def record (c : Compilation) (events : List Event) : Compilation :=
  { c with log := c.log.recordAll events }

/-- Records the graph. -/
def dump (label : String) : EStateM Error Compilation Unit := fun c =>
  match c.phase.dumpEvents c.graph label with
  | .ok events => .ok () (c.record events)
  | .error e => .error e c

/-- Takes a rejected loop into account. -/
def reject (c : Compilation) (header : BlockId) (r : Rejection) : Compilation :=
  let phase := { c.phase with rejected := c.phase.rejected.insert header }
  { c with phase := phase }.record (c.phase.rejectionEvents c.graph header r)

/-- The first of the listed loops that has the right shape; those before it are rejected. -/
def selectFrom : List NaturalLoop → EStateM Error Compilation (Option LoopShape)
  | [], c => .ok none c
  | loop :: rest, c =>
    match c.graph.loopShape c.phase.config loop with
    | .ok shape => .ok (some shape) c
    | .error (.rejected r) => selectFrom rest (c.reject loop.header r)
    | .error (.stopped e) => .error e c

/-- The next loop to unroll. -/
def select : EStateM Error Compilation (Option LoopShape) := fun c =>
  let c := { c with graph := c.graph.cacheLoops }
  match c.phase.candidateLoops c.graph.loopForest with
  | .ok loops => selectFrom loops c
  | .error e => .error e c

/-- Takes an unrolled loop into account. -/
def finishUnroll (c : Compilation) (s : LoopShape) (removed : List BlockId) (g : Graph) :
    Compilation :=
  { c with phase := { c.phase with unrolled := c.phase.unrolled.insert s.header }, graph := g
    : Compilation }.record (c.phase.unrollEvents g s removed)

/-- Unrolls up to `budget` loops; the flag tells whether the graph has changed. -/
def rounds (changed : Bool) : (budget : Nat) → EStateM Error Compilation Bool
  | 0, c => .ok changed c
  | budget + 1, c =>
    match select c with
    | .error e c => .error e c
    | .ok none c => .ok changed c
    | .ok (some shape) c =>
      match Graph.unrollLoop c.phase.config shape c.graph with
      | .ok removed g => rounds true budget (c.finishUnroll shape removed g)
      | .error e g => .error e { c with graph := g }

/-- Threads the locals of a graph that has changed. -/
def finish (changed : Bool) : EStateM Error Compilation Bool := fun c =>
  if changed then
    match c.graph.thread with
    | .error e => .error e c
    | .ok g =>
      match dump "after loop unrolling" { c with graph := g } with
      | .error e c => .error e c
      | .ok () c => .ok true c
  else .ok false c

/-- Runs the phase; the flag tells whether the graph has changed. -/
def run : EStateM Error Compilation Bool := fun c =>
  if !c.phase.config.allows c.graph.function then
    .ok false (c.record (c.phase.rejectionEvents c.graph Graph.entry .functionNotAllowed))
  else
    match dump "before loop unrolling" { c with graph := c.graph.resetReachability } with
    | .error e c => .error e c
    | .ok () c =>
      match rounds false (c.phase.config.maxUnrolledLoops - c.phase.unrolled.length) c with
      | .error e c => .error e c
      | .ok changed c => finish changed c

end Compilation

end Unroller
