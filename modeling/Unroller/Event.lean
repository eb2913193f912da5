import Unroller.Decimal.Elapsed
import Unroller.FunctionHash
import Unroller.Graph.Node

/-!
# Events and what they add up to

Transformations do not print; they record events.  A log is the list of events in the order of
recording, and all figures are computed from it.
-/

namespace Unroller

/-- What an event is about. -/
inductive EventKind where
  | loopUnrolled
  | loopPartiallyUnrolled
  | loopRejected
  | blockRemoved
  | passStarted
  | passCompleted
  | info
  | warning
  | error
deriving DecidableEq, Inhabited, Repr

namespace EventKind

/-- All kinds. -/
def all : List EventKind :=
  [.loopUnrolled, .loopPartiallyUnrolled, .loopRejected, .blockRemoved, .passStarted,
    .passCompleted, .info, .warning, .error]

/-- The name of a kind. -/
def name : EventKind → String
  | .loopUnrolled => "LoopUnrolled"
  | .loopPartiallyUnrolled => "LoopPartiallyUnrolled"
  | .loopRejected => "LoopRejected"
  | .blockRemoved => "BlockRemoved"
  | .passStarted => "PassStarted"
  | .passCompleted => "PassCompleted"
  | .info => "Info"
  | .warning => "Warning"
  | .error => "Error"

/-- The kind with the given name. -/
def ofName? (name : String) : Option EventKind := all.find? fun k => k.name == name

/-- The kind in words. -/
def description : EventKind → String
  | .loopUnrolled => "loop unrolled"
  | .loopPartiallyUnrolled => "loop partially unrolled"
  | .loopRejected => "loop rejected"
  | .blockRemoved => "block removed"
  | .passStarted => "pass started"
  | .passCompleted => "pass completed"
  | .info => "info"
  | .warning => "warning"
  | .error => "error"

/-- Whether events of this kind change a graph. -/
def isTransformation : EventKind → Bool
  | .loopUnrolled | .loopPartiallyUnrolled | .blockRemoved => true
  | _ => false

end EventKind

/-- One event. -/
structure Event where
  kind : EventKind
  /-- The function it happened in, if known. -/
  function : Option FunctionHash := none
  /-- The block it concerns. -/
  location : Option BlockId := none
  /-- What happened; the kind in words unless something else is said. -/
  message : String := kind.description
  /-- The phase it happened in. -/
  pass : Option String := none
deriving DecidableEq, Inhabited

namespace Event

/-- An event that only says something. -/
def note (kind : EventKind) (message : String) : Event := { kind := kind, message := message }

/-- The text of an event. -/
def render (e : Event) : String :=
  "[" ++ e.kind.description ++ "]"
    ++ (match e.function with
      | some function => " " ++ function.render
      | none => "")
    ++ (match e.location with
      | some location => " " ++ blockText location
      | none => "")
    ++ " " ++ e.message

end Event

/-- The events in the order of recording. -/
structure EventLog where
  events : Array Event := #[]
deriving DecidableEq, Inhabited

namespace EventLog

/-- Records an event. -/
def record (log : EventLog) (e : Event) : EventLog := ⟨log.events.push e⟩

/-- Records events in order. -/
def recordAll (log : EventLog) (events : List Event) : EventLog := events.foldl record log

/-- Appends the events of another log. -/
def merge (log other : EventLog) : EventLog := ⟨log.events ++ other.events⟩

/-- The number of events. -/
def size (log : EventLog) : Nat := log.events.size

/-- The events of a kind. -/
def ofKind (log : EventLog) (kind : EventKind) : List Event :=
  log.events.toList.filter fun e => e.kind == kind

/-- Whether there is an event of a kind. -/
def has (log : EventLog) (kind : EventKind) : Bool := log.events.any fun e => e.kind == kind

/-- The number of events of a kind. -/
def countKind (log : EventLog) (kind : EventKind) : Nat := (log.ofKind kind).length

/-- The events of a function. -/
def ofFunction (log : EventLog) (function : FunctionHash) : List Event :=
  log.events.toList.filter fun e => e.function == some function

/-- The events that changed a graph. -/
def transformations (log : EventLog) : List Event :=
  log.events.toList.filter fun e => e.kind.isTransformation

/-- The number of functions that events changed. -/
def functionsAffected (log : EventLog) : Nat :=
  ((log.transformations.filterMap Event.function).eraseDups).length

/-- The kinds that occur with their numbers, sorted by their description. -/
def tally (log : EventLog) : List (EventKind × Nat) :=
  ((EventKind.all.map fun k => (k, log.countKind k)).filter fun e => e.2 != 0).mergeSort
    fun a b => decide (a.1.description ≤ b.1.description)

/-- The transformations with their numbers, sorted as text. -/
def summary (log : EventLog) : String :=
  if log.events.isEmpty then "no events"
  else
    let parts := (log.tally.filter fun e => e.1.isTransformation).map fun e =>
      toString e.2 ++ " " ++ e.1.description
    if parts.isEmpty then toString log.size ++ " events"
    else ", ".intercalate (parts.mergeSort fun a b => decide (a ≤ b))

end EventLog

/-- Figures computed from a log. -/
structure Stats where
  functionsTransformed : Nat
  loopsUnrolled : Nat
  loopsPartiallyUnrolled : Nat
  loopsRejected : Nat
  blocksRemoved : Nat
  warnings : Nat
  errors : Nat
  /-- The time taken, in nanoseconds. -/
  nanoseconds : Nat := 0
deriving DecidableEq, Inhabited

namespace Stats

/-- The figures of a log. -/
def ofLog (log : EventLog) : Stats where
  functionsTransformed := log.functionsAffected
  loopsUnrolled := log.countKind .loopUnrolled
  loopsPartiallyUnrolled := log.countKind .loopPartiallyUnrolled
  loopsRejected := log.countKind .loopRejected
  blocksRemoved := log.countKind .blockRemoved
  warnings := log.countKind .warning
  errors := log.countKind .error

/-- The figures that are not zero, in a fixed order. -/
def parts (s : Stats) : List String :=
  let counts :=
    [(s.functionsTransformed, "functions"), (s.loopsUnrolled, "loops unrolled"),
      (s.loopsPartiallyUnrolled, "loops partially unrolled"), (s.loopsRejected, "loops rejected"),
      (s.blocksRemoved, "blocks removed"), (s.warnings, "warnings"), (s.errors, "errors")]
  ((counts.filter fun e => e.1 != 0).map fun e => toString e.1 ++ " " ++ e.2)
    ++ if s.nanoseconds = 0 then [] else [Decimal.elapsed s.nanoseconds]

/-- The figures in words. -/
def summary (s : Stats) : String :=
  if s.parts.isEmpty then "no changes" else ", ".intercalate s.parts

end Stats

end Unroller
