import Unroller.Error
import Unroller.FunctionHash
import Unroller.Text.Blank

/-!
# Lists of functions eligible for unrolling

The text format has one function identity per line.  Blanks around it are ignored, and so are blank
lines and lines that start with `#`.
-/

namespace Unroller

/-- A set of functions. -/
structure AllowList where
  /-- The listed functions, each once. -/
  functions : List FunctionHash := []
deriving DecidableEq, Inhabited

namespace AllowList

/-- Whether a function is listed. -/
def contains (l : AllowList) (h : FunctionHash) : Bool := l.functions.contains h

/-- Lists a function. -/
def insert (l : AllowList) (h : FunctionHash) : AllowList := ⟨l.functions.insert h⟩

/-- The number of listed functions. -/
def size (l : AllowList) : Nat := l.functions.length

/-- Whether no function is listed. -/
def isEmpty (l : AllowList) : Bool := l.functions.isEmpty

/-- The list of the given functions. -/
def ofList (functions : List FunctionHash) : AllowList := functions.foldl insert {}

/-- Whether a line without the blanks around it says nothing. -/
def isIgnored (line : List Char) : Bool := line.isEmpty || line.head? == some '#'

/-- Reads the lines from the one with the given number on. -/
def parseLines (l : AllowList) (number : Nat) : List (List Char) → Except ConfigFault AllowList
  | [] => .ok l
  | line :: rest =>
    let line := Text.trim line
    if isIgnored line then parseLines l (number + 1) rest
    else
      match FunctionHash.ofDigits? line with
      | some h => parseLines (l.insert h) (number + 1) rest
      | none => .error (.badAllowListLine number (String.ofList line))

/-- Reads a text. -/
def parse (text : String) : Except ConfigFault AllowList := parseLines {} 1 (Text.lines text.toList)

/-- Reads a file's bytes, which must be UTF-8. -/
def ofBytes (bytes : ByteArray) : Except Error AllowList :=
  match String.fromUTF8? bytes with
  | none => .error .unreadableFile
  | some text =>
    match parse text with
    | .ok l => .ok l
    | .error e => .error (.configFault e)

end AllowList

/-- Reads a function identity. -/
def FunctionHash.parse (text : String) : Except ConfigFault FunctionHash :=
  match FunctionHash.parse? text with
  | some h => .ok h
  | none => .error (.badHash text)

end Unroller
