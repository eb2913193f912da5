/-!
# Node kinds and their classification

Every node of a graph has a kind, which fixes what it does, whether it ends a block, and how it is
copied.  The kinds stand in their declaration order in `Kind.all`; `Kind.name` is the name used in
dumps and messages.
-/

namespace Unroller

/-- What a node does. -/
inductive Kind where
  | jsConstant
  | doubleConstant
  | int52Constant
  | getLocal
  | setLocal
  | phi
  | flush
  | phantomLocal
  | exitOk
  | invalidationPoint
  | loopHint
  | checkTierUpInLoop
  | countExecution
  | movHint
  | zombieHint
  | phantom
  | check
  | arithAdd
  | arithSub
  | arithMul
  | arithDiv
  | arithMod
  | arithNegate
  | bitAnd
  | bitOr
  | bitXor
  | bitLShift
  | bitRShift
  | bitURShift
  | valueToInt32
  | doubleRep
  | int52Rep
  | valueRep
  | valueAdd
  | compareLess
  | compareLessEq
  | compareGreater
  | compareGreaterEq
  | compareEq
  | compareStrictEq
  | logicalNot
  | getByVal
  | putByVal
  | putByValDirect
  | getArrayLength
  | getById
  | putById
  | newArray
  | call
  | callVarargs
  | loadVarargs
  | varargsLength
  | forwardVarargs
  | makeRope
  | strCat
  | toString
  | createClosure
  | createActivation
  | phantomNewObject
  | jump
  | branch
  | switch
  | ret
  | raise
  | unreachable
deriving DecidableEq, Inhabited, Repr

/-- The sort of record that goes with a kind whose payload lies outside the node. -/
inductive RecordShape where
  | branchTargets
  | switchTable
  | callVarargs
  | loadVarargs
deriving DecidableEq, Inhabited, Repr

namespace RecordShape

/-- The name of a shape in messages. -/
def name : RecordShape → String
  | .branchTargets => "BranchTargets"
  | .switchTable => "SwitchTable"
  | .callVarargs => "CallVarargs"
  | .loadVarargs => "LoadVarargs"

end RecordShape

/-- How nodes of a kind are copied. -/
inductive CloneStrategy where
  /-- Operands are copied first; the payload is shared. -/
  | common
  /-- As `common`, with a record of its own for the copy. -/
  | special (shape : RecordShape)
  /-- Copied together with its block, before the nodes. -/
  | preCloned
  /-- Never copied. -/
  | unsupported
deriving DecidableEq, Inhabited, Repr

namespace CloneStrategy

/-- The name of a strategy. -/
def render : CloneStrategy → String
  | .common => "Common"
  | .special shape => "Special(" ++ shape.name ++ ")"
  | .preCloned => "PreCloned"
  | .unsupported => "Unsupported"

end CloneStrategy

namespace Kind

/-- The kinds in declaration order. -/
def all : List Kind :=
  [.jsConstant, .doubleConstant, .int52Constant, .getLocal, .setLocal, .phi, .flush,
    .phantomLocal, .exitOk, .invalidationPoint, .loopHint, .checkTierUpInLoop, .countExecution,
    .movHint, .zombieHint, .phantom, .check, .arithAdd, .arithSub, .arithMul, .arithDiv,
    .arithMod, .arithNegate, .bitAnd, .bitOr, .bitXor, .bitLShift, .bitRShift, .bitURShift,
    .valueToInt32, .doubleRep, .int52Rep, .valueRep, .valueAdd, .compareLess, .compareLessEq,
    .compareGreater, .compareGreaterEq, .compareEq, .compareStrictEq, .logicalNot, .getByVal,
    .putByVal, .putByValDirect, .getArrayLength, .getById, .putById, .newArray, .call,
    .callVarargs, .loadVarargs, .varargsLength, .forwardVarargs, .makeRope, .strCat, .toString,
    .createClosure, .createActivation, .phantomNewObject, .jump, .branch, .switch, .ret, .raise,
    .unreachable]

/-- The name of a kind. -/
def name : Kind → String
  | .jsConstant => "JSConstant"
  | .doubleConstant => "DoubleConstant"
  | .int52Constant => "Int52Constant"
  | .getLocal => "GetLocal"
  | .setLocal => "SetLocal"
  | .phi => "Phi"
  | .flush => "Flush"
  | .phantomLocal => "PhantomLocal"
  | .exitOk => "ExitOK"
  | .invalidationPoint => "InvalidationPoint"
  | .loopHint => "LoopHint"
  | .checkTierUpInLoop => "CheckTierUpInLoop"
  | .countExecution => "CountExecution"
  | .movHint => "MovHint"
  | .zombieHint => "ZombieHint"
  | .phantom => "Phantom"
  | .check => "Check"
  | .arithAdd => "ArithAdd"
  | .arithSub => "ArithSub"
  | .arithMul => "ArithMul"
  | .arithDiv => "ArithDiv"
  | .arithMod => "ArithMod"
  | .arithNegate => "ArithNegate"
  | .bitAnd => "BitAnd"
  | .bitOr => "BitOr"
  | .bitXor => "BitXor"
  | .bitLShift => "BitLShift"
  | .bitRShift => "BitRShift"
  | .bitURShift => "BitURShift"
  | .valueToInt32 => "ValueToInt32"
  | .doubleRep => "DoubleRep"
  | .int52Rep => "Int52Rep"
  | .valueRep => "ValueRep"
  | .valueAdd => "ValueAdd"
  | .compareLess => "CompareLess"
  | .compareLessEq => "CompareLessEq"
  | .compareGreater => "CompareGreater"
  | .compareGreaterEq => "CompareGreaterEq"
  | .compareEq => "CompareEq"
  | .compareStrictEq => "CompareStrictEq"
  | .logicalNot => "LogicalNot"
  | .getByVal => "GetByVal"
  | .putByVal => "PutByVal"
  | .putByValDirect => "PutByValDirect"
  | .getArrayLength => "GetArrayLength"
  | .getById => "GetById"
  | .putById => "PutById"
  | .newArray => "NewArray"
  | .call => "Call"
  | .callVarargs => "CallVarargs"
  | .loadVarargs => "LoadVarargs"
  | .varargsLength => "VarargsLength"
  | .forwardVarargs => "ForwardVarargs"
  | .makeRope => "MakeRope"
  | .strCat => "StrCat"
  | .toString => "ToString"
  | .createClosure => "CreateClosure"
  | .createActivation => "CreateActivation"
  | .phantomNewObject => "PhantomNewObject"
  | .jump => "Jump"
  | .branch => "Branch"
  | .switch => "Switch"
  | .ret => "Return"
  | .raise => "Throw"
  | .unreachable => "Unreachable"

/-- The kind with the given name. -/
def ofName? (name : String) : Option Kind := all.find? fun k => k.name == name

/-- How nodes of this kind are copied. -/
def cloneStrategy : Kind → CloneStrategy
  | .phi => .preCloned
  | .branch => .special .branchTargets
  | .switch => .special .switchTable
  | .callVarargs => .special .callVarargs
  | .loadVarargs | .varargsLength => .special .loadVarargs
  | .createClosure | .createActivation | .forwardVarargs | .phantomNewObject => .unsupported
  | _ => .common

/-- Kinds whose operands usually lie in the shared list of variadic operands. -/
def hasVarArgs : Kind → Bool
  | .newArray | .call => true
  | _ => false

/-- Kinds that end a block. -/
def isTerminal : Kind → Bool
  | .jump | .branch | .switch | .ret | .raise | .unreachable => true
  | _ => false

/-- Constants. -/
def isConstant : Kind → Bool
  | .jsConstant | .doubleConstant | .int52Constant => true
  | _ => false

/-- Kinds that name a local in their payload. -/
def hasLocal : Kind → Bool
  | .getLocal | .setLocal | .phi | .flush | .phantomLocal | .movHint | .zombieHint => true
  | _ => false

/-- Markers that generate no code unless they have operands. -/
def isBookkeeping : Kind → Bool
  | .exitOk | .invalidationPoint | .loopHint | .checkTierUpInLoop | .countExecution => true
  | _ => false

/-- Kinds that never generate code. -/
def isZeroCost : Kind → Bool
  | .phi | .movHint | .zombieHint | .phantom | .phantomLocal | .flush | .phantomNewObject => true
  | _ => false

/-- Arithmetic, bit operations, conversions and constants that are always numbers. -/
def isNumeric : Kind → Bool
  | .doubleConstant | .int52Constant | .arithAdd | .arithSub | .arithMul | .arithDiv | .arithMod
  | .arithNegate | .bitAnd | .bitOr | .bitXor | .bitLShift | .bitRShift | .bitURShift
  | .valueToInt32 | .doubleRep | .int52Rep | .valueRep => true
  | _ => false

/-- Reads and writes of locals. -/
def isLocalAccess : Kind → Bool
  | .getLocal | .setLocal => true
  | _ => false

/-- Stores to array elements. -/
def isArrayStore : Kind → Bool
  | .putByVal | .putByValDirect => true
  | _ => false

/-- Loads of array elements. -/
def isArrayLoad : Kind → Bool
  | .getByVal => true
  | _ => false

/-- Kinds that a loop must not hold to be unrolled. -/
def isDenylisted : Kind → Bool
  | .makeRope | .strCat => true
  | _ => false

/-- Comparisons that may control a counted loop. -/
def isInductionCompare : Kind → Bool
  | .compareLess | .compareLessEq | .compareGreater | .compareGreaterEq | .compareEq => true
  | _ => false

/-- Updates that may step a loop counter. -/
def isInductionUpdate : Kind → Bool
  | .arithAdd | .arithSub | .arithMul | .arithDiv => true
  | _ => false

end Kind

end Unroller
