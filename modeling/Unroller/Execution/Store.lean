import Unroller.Error

/-!
# What a run reads and writes

A run has locals and arrays.  Both grow when written past their end, with undefined values in
between; reading past the end gives undefined.  Every access to an array element is recorded.
-/

namespace Unroller

/-- Whether an array element was read or written. -/
inductive AccessKind where
  | load
  | store
deriving DecidableEq, Inhabited, Repr

/-- The name of an access. -/
def AccessKind.name : AccessKind → String
  | .load => "Load"
  | .store => "Store"

/-- One access to an array element. -/
structure Access where
  kind : AccessKind
  /-- The number of the array. -/
  array : Nat
  /-- The index used, in range or not. -/
  index : Int32
  /-- The value read or written. -/
  value : Value
deriving DecidableEq, Inhabited, Repr

/-- The locals and arrays of a run, and the accesses made so far. -/
structure Store where
  locals : Array Value := #[]
  arrays : Array (Array Value) := #[]
  trace : Array Access := #[]
deriving DecidableEq, Inhabited

/-- Writes a position of an array, growing it with undefined values as needed. -/
def writeGrowing (values : Array Value) (i : Nat) (v : Value) : Array Value :=
  (values ++ Array.replicate (i + 1 - values.size) Value.undefined).setIfInBounds i v

namespace Store

/-- The store with `locals` undefined locals and no arrays. -/
def ofLocals (locals : Nat) : Store := { locals := Array.replicate locals Value.undefined }

/-- The value of a local. -/
def getLocal (s : Store) (l : Local) : Value := s.locals.getD l .undefined

/-- Writes a local. -/
def setLocal (s : Store) (l : Local) (v : Value) : Store :=
  { s with locals := writeGrowing s.locals l v }

/-- Adds an array and refers to it. -/
def addArray (s : Store) (elements : Array Value) : Value × Store :=
  (.array s.arrays.size, { s with arrays := s.arrays.push elements })

/-- The number of elements of an array. -/
def arraySize (s : Store) (id : Nat) : Nat := (s.arrays.getD id #[]).size

/-- The element of an array, undefined when the index is negative or past the end. -/
def element (s : Store) (id : Nat) (index : Int32) : Value :=
  if index.toInt < 0 then .undefined
  else (s.arrays.getD id #[]).getD index.toInt.toNat .undefined

/-- Reads an element and records the access. -/
def load (s : Store) (id : Nat) (index : Int32) : Value × Store :=
  let v := s.element id index
  (v, { s with trace := s.trace.push ⟨.load, id, index, v⟩ })

/-- Writes an element at an index that is not negative, and records the access. -/
def put (s : Store) (id : Nat) (index : Int32) (v : Value) : Store :=
  { s with
    arrays := s.arrays.modify id fun values => writeGrowing values index.toInt.toNat v
    trace := s.trace.push ⟨.store, id, index, v⟩ }

end Store

end Unroller
