import Unroller.Sha1
import Unroller.Text.Hex

/-!
# Function identities

A function is known by the first four bytes of the SHA-1 digest of its source text.  The identity
is written as eight lower-case hexadecimal digits and read back in either case; nothing else is
read.
-/

namespace Unroller

/-- The stable identity of a compiled function. -/
structure FunctionHash where
  /-- The identity as a number. -/
  raw : UInt32
deriving DecidableEq, Inhabited, Repr

namespace FunctionHash

/-- The identity of the function with the given source text. -/
def ofSource (source : String) : FunctionHash :=
  ⟨(Sha1.digest source.toUTF8.toList).a⟩

/-- The eight digits of an identity. -/
def digits (h : FunctionHash) : List Char := Text.Hex.fixed 8 h.raw.toNat

/-- The text of an identity. -/
def render (h : FunctionHash) : String := String.ofList h.digits

/-- Reads exactly eight hexadecimal digits.  The UTF-8 code of the text is tested before a number is
read, and that keeps out what the reader of numbers would let pass. -/
def ofDigits? (text : List Char) : Option FunctionHash :=
  let bytes := text.flatMap String.utf8EncodeChar
  if bytes.length = 8 ∧ bytes.all Text.Hex.isDigitByte then
    (Text.Hex.readWord? text).map FunctionHash.mk
  else none

/-- Reads the text of an identity. -/
def parse? (text : String) : Option FunctionHash := ofDigits? text.toList

end FunctionHash

end Unroller
