import Unroller.Graph.Block

/-!
# What can go wrong

Each part of the library has its own causes of failure; `Error` is their union.  The wording of
every cause is in its `message`, and nowhere else.

* `Defect`: a graph breaks a structural rule, or was built wrongly;
* `RunFault`: a run of a graph cannot go on;
* `Violation`: a transformation meets something its own checks should have excluded;
* `ConfigFault`: a setting cannot be read.
-/

namespace Unroller

/-- A value at run time. -/
inductive Value where
  | undefined
  | int32 (value : Int32)
  | boolean (value : Bool)
  /-- A reference to an array by its number. -/
  | array (id : Nat)
deriving DecidableEq, Inhabited, Repr

namespace Value

/-- Whether a condition with this value holds. -/
def isTruthy : Value → Bool
  | .undefined => false
  | .int32 value => value != 0
  | .boolean value => value
  | .array _ => true

/-- The text of a value. -/
def render : Value → String
  | .undefined => "undefined"
  | .int32 value => toString value.toInt
  | .boolean value => Constant.boolText value
  | .array id => "array#" ++ toString id

end Value

/-- A structural rule that a graph breaks, or a mistake in building it. -/
inductive Defect where
  | appendToMissing (block : BlockId)
  | phiToMissing (block : BlockId)
  | switchToUnknown (block : BlockId)
  | noBlockSelected (kind : Kind)
  | noEntry
  | wrongSlot (block : BlockId)
  | unknownListed (block : BlockId) (node : NodeId)
  | placedTwice (node : NodeId)
  | notAPhi (block : BlockId) (node : NodeId)
  | phiAmongNodes (block : BlockId) (node : NodeId)
  | emptyBlock (block : BlockId)
  | noTerminal (block : BlockId) (node : NodeId) (kind : Kind)
  | earlyTerminal (block : BlockId) (node : NodeId) (kind : Kind)
  | wrongPayload (node : NodeId) (kind : Kind) (payload : Payload)
  | variadicRange (node : NodeId)
  | unknownOperand (node operand : NodeId)
  | unavailableOperand (node operand : NodeId)
  | crowdedPad (block : BlockId)
  | deadSuccessor (block : BlockId) (slot : Nat) (target : BlockId)
  | unsetSuccessor (block : BlockId) (slot : Nat)
deriving Inhabited

namespace Defect

/-- The wording of a defect. -/
def message : Defect → String
  | .appendToMissing block => "cannot append to missing block " ++ blockText block
  | .phiToMissing block => "cannot add a phi to missing block " ++ blockText block
  | .switchToUnknown block => "switch_to unknown block " ++ blockText block
  | .noBlockSelected kind => kind.name ++ " appended before any block was selected"
  | .noEntry => "graph has no entry block"
  | .wrongSlot block => "block " ++ blockText block ++ " is stored in the wrong slot"
  | .unknownListed block node =>
    "block " ++ blockText block ++ " lists unknown node " ++ nodeText node
  | .placedTwice node => "node " ++ nodeText node ++ " is placed twice"
  | .notAPhi block node => "phi list of " ++ blockText block ++ " holds " ++ nodeText node
  | .phiAmongNodes block node =>
    "phi " ++ nodeText node ++ " in the node list of " ++ blockText block
  | .emptyBlock block => "block " ++ blockText block ++ " is empty"
  | .noTerminal block node kind =>
    "block " ++ blockText block ++ " ends in non-terminal " ++ nodeText node ++ " ("
      ++ kind.name ++ ")"
  | .earlyTerminal block node kind =>
    "terminal " ++ nodeText node ++ " (" ++ kind.name ++ ") in the middle of block "
      ++ blockText block
  | .wrongPayload node kind payload =>
    nodeText node ++ " (" ++ kind.name ++ ") carries mismatched data " ++ payload.describe
  | .variadicRange node => nodeText node ++ " has an out-of-range variadic child list"
  | .unknownOperand node operand => nodeText node ++ " uses unknown node " ++ nodeText operand
  | .unavailableOperand node operand =>
    nodeText node ++ " uses " ++ nodeText operand ++ " which is not available there"
  | .crowdedPad block => "edge pad " ++ blockText block ++ " holds more than its jump"
  | .deadSuccessor block slot target =>
    "block " ++ blockText block ++ " successor " ++ toString slot ++ " names dead block "
      ++ blockText target
  | .unsetSuccessor block slot =>
    "block " ++ blockText block ++ " successor " ++ toString slot ++ " is unset"

end Defect

/-- Why a run of a graph stops without returning. -/
inductive RunFault where
  | deadBlock (block : BlockId)
  | fellThrough (block : BlockId)
  | budgetExhausted (budget : Nat)
  | missingNode (node : NodeId)
  | lacksOperand (node : NodeId) (slot : Nat)
  | noValue (operand node : NodeId)
  | notAnInt (node : NodeId) (found : Value)
  | notAnArray (node : NodeId) (found : Value)
  | overflow (node : NodeId)
  | unsupportedDouble (node : NodeId)
  | noLocal (node : NodeId)
  | elementWithoutValue (node : NodeId)
  | negativeIndex (node : NodeId) (index : Int32)
  | noTarget (node : NodeId)
  | noSuccessor (node : NodeId) (slot : Nat)
  | noSwitchTable (node : NodeId)
  | danglingSwitchTable (node : NodeId)
  | threw (node : NodeId)
  | reachedUnreachable (node : NodeId)
  | unsupported (node : NodeId) (kind : Kind)
deriving DecidableEq, Inhabited

namespace RunFault

/-- The wording of a fault. -/
def message : RunFault → String
  | .deadBlock block => "control reached dead block " ++ blockText block
  | .fellThrough block => "block " ++ blockText block ++ " fell through"
  | .budgetExhausted budget => "step budget of " ++ toString budget ++ " exhausted"
  | .missingNode node => nodeText node ++ " does not exist"
  | .lacksOperand node slot => nodeText node ++ " lacks operand " ++ toString slot
  | .noValue operand node => nodeText operand ++ " has no value when used by " ++ nodeText node
  | .notAnInt node found => nodeText node ++ " expected int32, got " ++ found.render
  | .notAnArray node found => nodeText node ++ " expected an array, got " ++ found.render
  | .overflow node => "int32 overflow at " ++ nodeText node
  | .unsupportedDouble node => nodeText node ++ ": doubles are not supported"
  | .noLocal node => nodeText node ++ " has no local"
  | .elementWithoutValue node => nodeText node ++ " has an operand without value"
  | .negativeIndex node index =>
    nodeText node ++ " stores to negative index " ++ toString index.toInt
  | .noTarget node => nodeText node ++ " has no target"
  | .noSuccessor node slot => nodeText node ++ " has no successor " ++ toString slot
  | .noSwitchTable node => nodeText node ++ " has no switch table"
  | .danglingSwitchTable node => nodeText node ++ " has a dangling switch table"
  | .threw node => nodeText node ++ " threw"
  | .reachedUnreachable node => nodeText node ++ " is unreachable"
  | .unsupported node kind => nodeText node ++ " (" ++ kind.name ++ ") cannot be interpreted"

end RunFault

/-- Something that a transformation relies on and that does not hold. -/
inductive Violation where
  | noTerminal (block : BlockId)
  | noSuccessorSlot (block : BlockId) (slot : Nat)
  | lostSuccessorSlot (block : BlockId) (slot : Nat)
  | phiCloned (node : NodeId) (kind : Kind)
  | notCloneable (node : NodeId) (kind : Kind)
  | noRecord (node : NodeId) (shape : RecordShape) (found : Payload)
  | cloneOfMissing (block : BlockId)
  | foreignSnapshot (l : Local) (block : BlockId) (node : NodeId)
  | neverCloned (block : BlockId)
deriving Inhabited

namespace Violation

/-- The wording of a violation. -/
def message : Violation → String
  | .noTerminal block => "block " ++ blockText block ++ " has no terminal"
  | .noSuccessorSlot block slot =>
    "block " ++ blockText block ++ " has no successor slot " ++ toString slot
  | .lostSuccessorSlot block slot =>
    "block " ++ blockText block ++ " lost successor slot " ++ toString slot
  | .phiCloned node kind =>
    nodeText node ++ " (" ++ kind.name ++ ") should have been cloned with its block"
  | .notCloneable node kind => nodeText node ++ " (" ++ kind.name ++ ") cannot be cloned"
  | .noRecord node shape found =>
    nodeText node ++ " has no " ++ shape.name ++ " record to clone (found " ++ found.describe
      ++ ")"
  | .cloneOfMissing block => "cannot clone missing block " ++ blockText block
  | .foreignSnapshot l block node =>
    localText l ++ " of block " ++ blockText block ++ " refers to " ++ nodeText node
      ++ " which was not cloned"
  | .neverCloned block => "block " ++ blockText block ++ " was never cloned"

end Violation

/-- A setting that cannot be read. -/
inductive ConfigFault where
  | badHash (text : String)
  | badAllowListLine (number : Nat) (line : String)
deriving DecidableEq, Inhabited

namespace ConfigFault

/-- The wording of a fault. -/
def message : ConfigFault → String
  | .badHash text => "invalid function hash '" ++ text ++ "': expected 8 hex digits"
  | .badAllowListLine number line =>
    "allow-list line " ++ toString number ++ ": '" ++ line ++ "' is not a function id"

end ConfigFault

/-- The four sorts of error. -/
inductive Category where
  | graph
  | invariant
  | config
  | file
deriving DecidableEq, Inhabited, Repr

/-- Any error. -/
inductive Error where
  | defect (cause : Defect)
  | runFault (cause : RunFault)
  | violation (cause : Violation)
  | configFault (cause : ConfigFault)
  /-- A file could not be read as text. -/
  | unreadableFile
  /-- A position names no node of the graph. -/
  | missingNode (node : NodeId)
  /-- Copying follows operands, or records that blocks share, in a circle. -/
  | endlessCopy
  /-- A count of iterations goes past the largest number of 32 bits. -/
  | counterOverflow
  /-- The loops around a loop lead round in a circle, as they can when the graph was edited after
  its loops were looked for. -/
  | endlessNesting
  /-- Operands lead back to a node, where that is asserted not to happen. -/
  | operandCycle (node : NodeId)
  /-- An error of a caller's own hook or phase. -/
  | reported (category : Category) (text : String)
deriving Inhabited

namespace Error

/-- The sort of an error.  Without one the library does not report a failure: it stops there, and
whatever called it stops with it. -/
def category? : Error → Option Category
  | .defect _ | .runFault _ => some .graph
  | .violation _ => some .invariant
  | .configFault _ => some .config
  | .unreadableFile => some .file
  | .missingNode _ | .endlessCopy | .counterOverflow | .endlessNesting | .operandCycle _ => none
  | .reported category _ => some category

/-- The wording of an error. -/
def message : Error → String
  | .defect cause => cause.message
  | .runFault cause => cause.message
  | .violation cause => cause.message
  | .configFault cause => cause.message
  | .unreadableFile => "the file cannot be read"
  | .missingNode node => nodeText node ++ " does not exist"
  | .endlessCopy => "copying does not end"
  | .counterOverflow => "the count of iterations overflows"
  | .endlessNesting => "the nesting of loops does not end"
  | .operandCycle node => "operand cycle through " ++ nodeText node
  | .reported _ text => text

/-- Whether the library stops. -/
def isStop (e : Error) : Bool := e.category?.isNone

/-- The wording of an error with what its sort puts in front. -/
def render (e : Error) : String :=
  match e.category? with
  | some .config => "Invalid configuration - " ++ e.message
  | some .invariant => "Invariant violation - <location>: " ++ e.message
  | _ => e.message

end Error

end Unroller
