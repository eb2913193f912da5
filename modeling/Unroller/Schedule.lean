import Unroller.Graph.Validity
import Unroller.Phase

/-!
# Running phases over batches of graphs

A schedule runs its phases in order over each graph.  A phase starts afresh for every graph.  An
error abandons the graph it happens in, and the batch goes on with the next.  What stops the library
ends the batch.
-/

namespace Unroller

/-- A graph with the log its phases record to. -/
structure Workpiece where
  graph : Graph
  log : EventLog
deriving Inhabited

/-- A phase of a schedule: its name, and what it does to a graph.  The flag tells whether the graph
has changed. -/
structure Pass where
  name : String
  run : EStateM Error Workpiece Bool

namespace Pass

/-- The pass that unrolls loops, with a phase of its own for each graph. -/
def unroll (config : UnrollConfig) : Pass where
  name := Phase.name
  run w :=
    match Compilation.run { phase := { config := config }, graph := w.graph, log := w.log } with
    | .ok changed c => .ok changed ⟨c.graph, c.log⟩
    | .error e c => .error e ⟨c.graph, c.log⟩

end Pass

/-- Phases in order, and whether graphs are checked after each phase that changed them. -/
structure Schedule where
  passes : List Pass
  validate : Bool

namespace Schedule

/-- Records an event of a phase. -/
def note (w : Workpiece) (e : Event) : Workpiece :=
  { w with log := w.log.record { e with function := w.graph.function } }

/-- Runs one phase over a graph. -/
def runPass (validate : Bool) (pass : Pass) : EStateM Error Workpiece Bool := fun w =>
  match pass.run (note w { kind := .passStarted, pass := some pass.name }) with
  | .error e w => .error e w
  | .ok changed w =>
    match if changed && validate then w.graph.validate else .ok () with
    | .error d => .error (.defect d) w
    | .ok () =>
      .ok changed (note w
        { kind := .passCompleted, pass := some pass.name
          message := if changed then "changed" else "unchanged" })

/-- Runs phases in order; the flag tells whether any of them changed the graph. -/
def runPasses (validate : Bool) (changed : Bool) : List Pass → EStateM Error Workpiece Bool
  | [] => return changed
  | pass :: rest => do
    let now ← runPass validate pass
    runPasses validate (changed || now) rest

/-- Runs all phases over one graph. -/
def runOne (s : Schedule) : EStateM Error Workpiece Bool := runPasses s.validate false s.passes

/-- What came of one graph of a batch. -/
structure Result where
  graph : Graph
  /-- Whether the graph has changed, or why it was abandoned. -/
  outcome : Except Error Bool

/-- Runs all phases over one graph of a batch; an error is recorded. -/
def runMember (s : Schedule) (g : Graph) (log : EventLog) : Except Error (Result × EventLog) :=
  match s.runOne ⟨g, log⟩ with
  | .ok changed w => .ok (⟨w.graph, .ok changed⟩, w.log)
  | .error e w =>
    if e.isStop then .error e
    else
      .ok (⟨w.graph, .error e⟩, w.log.record
        { kind := .error, function := w.graph.function
          message := "compilation of " ++ w.graph.name ++ " abandoned: " ++ e.render })

/-- Runs all phases over each graph of a batch. -/
def runMembers (s : Schedule) (log : EventLog) :
    List Graph → Except Error (List Result × EventLog)
  | [] => .ok ([], log)
  | g :: rest => do
    let (result, log) ← s.runMember g log
    let (results, log) ← s.runMembers log rest
    return (result :: results, log)

/-- Whether a graph was abandoned. -/
def Result.failed (r : Result) : Bool :=
  match r.outcome with
  | .ok _ => false
  | .error _ => true

/-- Runs all phases over each graph of a batch, and warns when graphs were abandoned. -/
def run (s : Schedule) (graphs : List Graph) (log : EventLog) :
    Except Error (List Result × EventLog) := do
  let (results, log) ← s.runMembers log graphs
  let failures := results.countP Result.failed
  if failures = 0 then return (results, log)
  else
    return (results, log.record (.note .warning
      (toString failures ++ " of " ++ toString graphs.length ++ " graphs failed")))

end Schedule

end Unroller
