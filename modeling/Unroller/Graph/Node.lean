import Unroller.Decimal.Layout
import Unroller.Graph.Kind

/-!
# Nodes

A node is one instruction: a kind, operand edges, a payload, the instruction it stems from and a
prediction of its value.  Nodes and blocks are named by their positions.  Payloads too large for a
node lie in records of their own, which the node names by position; such a position may dangle.

* `Edge`: an operand with the assumption its user makes about it;
* `Constant`: the value of a constant node;
* `Payload`: what a node carries besides its operands;
* `Node`: all of it together.

Each type has a `render` for dumps, and `Payload.describe` writes a payload out in messages.
-/

namespace Unroller

/-- The position of a block in its graph. -/
abbrev BlockId := Nat

/-- The position of a node in its graph. -/
abbrev NodeId := Nat

/-- The number of a local variable. -/
abbrev Local := Nat

/-- The text of a block position. -/
def blockText (b : BlockId) : String := "#" ++ toString b

/-- The text of a node position. -/
def nodeText (n : NodeId) : String := "@" ++ toString n

/-- The text of a local. -/
def localText (l : Local) : String := "loc" ++ toString l

/-- The text of the instruction a node stems from. -/
def originText (origin : Nat) : String := "bc#" ++ toString origin

/-- A set of named flags, as the list of the names that are set. -/
def flagsText (type : String) (names : List String) : String :=
  type ++ "(" ++ (if names.isEmpty then "0x0" else " | ".intercalate names) ++ ")"

/-! ## Operands -/

/-- What the user of an operand assumes about it. -/
inductive UseKind where
  | untyped
  | int32
  | number
  | boolean
  | array
  | cell
deriving DecidableEq, Inhabited, Repr

namespace UseKind

/-- All assumptions. -/
def all : List UseKind := [.untyped, .int32, .number, .boolean, .array, .cell]

/-- The name of an assumption. -/
def name : UseKind → String
  | .untyped => "Untyped"
  | .int32 => "Int32"
  | .number => "Number"
  | .boolean => "Boolean"
  | .array => "Array"
  | .cell => "Cell"

/-- The assumption with the given name. -/
def ofName? (name : String) : Option UseKind := all.find? fun u => u.name == name

end UseKind

/-- A reference to an operand, possibly empty. -/
structure Edge where
  /-- The operand. -/
  node? : Option NodeId := none
  /-- What the user assumes about it. -/
  use : UseKind := .untyped
deriving DecidableEq, Inhabited, Repr

namespace Edge

/-- The edge that refers to nothing. -/
def empty : Edge := {}

/-- An edge to `n` with an assumption. -/
def typed (n : NodeId) (use : UseKind) : Edge := ⟨some n, use⟩

/-- An edge to `n` without assumption. -/
def untyped (n : NodeId) : Edge := ⟨some n, .untyped⟩

/-- Whether the edge refers to a node. -/
def isSet (e : Edge) : Bool := e.node?.isSome

/-- The same assumption about another node. -/
def withNode (e : Edge) (n : NodeId) : Edge := { e with node? := some n }

/-- The text of an edge. -/
def render (e : Edge) : String :=
  match e.node?, e.use with
  | none, _ => "-"
  | some n, .untyped => nodeText n
  | some n, use => use.name ++ ":" ++ nodeText n

end Edge

/-- The operands of a node. -/
inductive Children where
  /-- Up to three operands, stored with the node. -/
  | fixed (first second third : Edge)
  /-- A range of the graph's list of variadic operands. -/
  | variadic (first count : Nat)
deriving DecidableEq, Inhabited, Repr

namespace Children

/-- No operand. -/
def none : Children := .fixed .empty .empty .empty

/-- One operand. -/
def one (a : Edge) : Children := .fixed a .empty .empty

/-- Two operands. -/
def two (a b : Edge) : Children := .fixed a b .empty

/-- Whether the operands are a variadic range. -/
def isVariadic : Children → Bool
  | .fixed .. => false
  | .variadic .. => true

/-- The `i`th operand stored with the node; empty beyond the third and for variadic ranges. -/
def get (c : Children) (i : Nat) : Edge :=
  match c, i with
  | .fixed a _ _, 0 => a
  | .fixed _ b _, 1 => b
  | .fixed _ _ c, 2 => c
  | _, _ => .empty

/-- The operands of a list, those after the third left out. -/
def ofList (edges : List Edge) : Children :=
  .fixed (edges.getD 0 .empty) (edges.getD 1 .empty) (edges.getD 2 .empty)

end Children

/-! ## Constants and predictions -/

/-- The value of a constant node. -/
inductive Constant where
  | int32 (value : Int32)
  | double (value : Float)
  | boolean (value : Bool)
  | undefined
  | null
deriving Inhabited

namespace Constant

/-- The value of a 32-bit integer constant. -/
def int32? : Constant → Option Int32
  | .int32 value => some value
  | _ => none

/-- Integer and double constants. -/
def isNumber : Constant → Bool
  | .int32 _ | .double _ => true
  | _ => false

/-- The text of a truth value. -/
def boolText (b : Bool) : String := if b then "true" else "false"

/-- The text of a constant in dumps. -/
def render : Constant → String
  | .int32 value => "Int32: " ++ toString value.toInt
  | .double value => "Double: " ++ Decimal.text value
  | .boolean value => boolText value
  | .undefined => "undefined"
  | .null => "null"

/-- The text of a constant in messages. -/
def describe : Constant → String
  | .int32 value => "Int32(" ++ toString value.toInt ++ ")"
  | .double value => "Double(" ++ Decimal.taggedText value ++ ")"
  | .boolean value => "Boolean(" ++ boolText value ++ ")"
  | .undefined => "Undefined"
  | .null => "Null"

end Constant

/-- The predicted types of a node's value, one bit each. -/
structure Prediction where
  bits : UInt8 := 0
deriving DecidableEq, Inhabited, Repr

namespace Prediction

/-- The flags in the order of their bits, lowest first. -/
def names : List String :=
  ["INT32", "DOUBLE", "BOOLEAN", "STRING", "ARRAY", "OBJECT", "OTHER"]

/-- The flags among the given bits; other bits are dropped. -/
def ofBits (bits : Nat) : Prediction := ⟨UInt8.ofNat (bits % 128)⟩

/-- No prediction. -/
def empty : Prediction := ⟨0⟩

/-- A 32-bit integer. -/
def int32 : Prediction := ⟨1⟩

/-- A floating-point number. -/
def double : Prediction := ⟨2⟩

/-- A truth value. -/
def boolean : Prediction := ⟨4⟩

/-- A text. -/
def string : Prediction := ⟨8⟩

/-- An array. -/
def array : Prediction := ⟨16⟩

/-- Whether nothing but numbers is predicted. -/
def isNumber (p : Prediction) : Bool := p.bits &&& 3 == p.bits

/-- The text of a prediction. -/
def render (p : Prediction) : String :=
  flagsText "SpeculatedType"
    ((names.zipIdx.filter fun e => p.bits.toNat.testBit e.2).map fun e => e.1)

end Prediction

/-! ## Payloads and records -/

/-- What a node carries besides its operands; `record` is a position among the graph's records of
that sort. -/
inductive Payload where
  | bare
  | constant (value : Constant)
  | slot (l : Local)
  | property (id : Nat)
  | jump (target : BlockId)
  | branch (record : Nat)
  | switch (record : Nat)
  | callVarargs (record : Nat)
  | loadVarargs (record : Nat)
deriving Inhabited

namespace Payload

/-- The local a payload names. -/
def slot? : Payload → Option Local
  | .slot l => some l
  | _ => none

/-- A record position in messages. -/
def recordText (record : Nat) : String := "AuxHandle(" ++ toString record ++ ")"

/-- The text of a payload in messages. -/
def describe : Payload → String
  | .bare => "None"
  | .constant value => "Constant(" ++ value.describe ++ ")"
  | .slot l => "Local(" ++ localText l ++ ")"
  | .property id => "Property(" ++ toString id ++ ")"
  | .jump target => "Jump(BlockIndex(" ++ toString target ++ "))"
  | .branch record => "Branch(" ++ recordText record ++ ")"
  | .switch record => "Switch(" ++ recordText record ++ ")"
  | .callVarargs record => "CallVarargs(" ++ recordText record ++ ")"
  | .loadVarargs record => "LoadVarargs(" ++ recordText record ++ ")"

end Payload

/-- A block to go to, with the number of times it was gone to. -/
structure Target where
  block : BlockId
  count : Float := 0
deriving Inhabited

/-- The two targets of a branch. -/
structure BranchRecord where
  /-- Where a truthy condition leads. -/
  taken : Target
  /-- Where a falsy condition leads. -/
  notTaken : Target
deriving Inhabited

/-- One case of a switch. -/
structure SwitchCase where
  value : Int32
  target : Target
deriving Inhabited

/-- The cases of a switch in order, and where all other values lead. -/
structure SwitchRecord where
  cases : List SwitchCase
  fallThrough : Target
deriving Inhabited

/-- The layout of a call with spread arguments. -/
structure CallVarargs where
  /-- The number of leading spread elements to skip. -/
  firstVarargOffset : Nat
deriving DecidableEq, Inhabited

/-- The layout of a load of spread arguments. -/
structure LoadVarargs where
  /-- The first local that takes an argument. -/
  start : Local
  /-- The local that takes the number of arguments. -/
  count : Local
  /-- The number of leading spread elements to skip. -/
  offset : Nat
  /-- The number of arguments always present. -/
  mandatoryMinimum : Nat
  /-- The largest number of arguments loaded. -/
  limit : Nat
deriving DecidableEq, Inhabited

/-! ## Nodes -/

/-- One instruction. -/
structure Node where
  kind : Kind
  children : Children := .none
  payload : Payload := .bare
  /-- The number of the instruction it stems from. -/
  origin : Nat := 0
  prediction : Prediction := .empty
deriving Inhabited

namespace Node

/-- The `i`th operand stored with the node. -/
def child (n : Node) (i : Nat) : Edge := n.children.get i

/-- The local the node names. -/
def slot? (n : Node) : Option Local := n.payload.slot?

/-- The value of a constant node. -/
def constant? (n : Node) : Option Constant :=
  match n.payload with
  | .constant value => if n.kind.isConstant then some value else none
  | _ => none

/-- The value of a 32-bit integer constant node. -/
def int32? (n : Node) : Option Int32 := n.constant?.bind Constant.int32?

end Node

end Unroller
