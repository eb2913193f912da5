/-!
# Hexadecimal digits

`digit` writes a number below sixteen in lower case, `value?` reads either case, and `fixed` writes
a number with a given count of digits, most significant first.  `readWord?` reads a number of 32
bits, with or without a plus sign.
-/

namespace Unroller.Text.Hex

/-- The digit for `n % 16`, in lower case. -/
def digit (n : Nat) : Char :=
  let d := n % 16
  if d < 10 then Char.ofNat ('0'.toNat + d) else Char.ofNat ('a'.toNat + (d - 10))

/-- The number a digit stands for, in either case. -/
def value? (c : Char) : Option Nat :=
  if '0' ≤ c ∧ c ≤ '9' then some (c.toNat - '0'.toNat)
  else if 'a' ≤ c ∧ c ≤ 'f' then some (c.toNat - 'a'.toNat + 10)
  else if 'A' ≤ c ∧ c ≤ 'F' then some (c.toNat - 'A'.toNat + 10)
  else none

/-- The lowest `count` digits of `n`, most significant first. -/
def fixed : (count : Nat) → (n : Nat) → List Char
  | 0, _ => []
  | count + 1, n => fixed count (n / 16) ++ [digit n]

/-- The number written by a list of digits after the number `acc`. -/
def readFrom (acc : Nat) : List Char → Option Nat
  | [] => some acc
  | c :: rest =>
    match value? c with
    | some d => readFrom (16 * acc + d) rest
    | none => none

/-- The number written by a list of digits. -/
def read? (digits : List Char) : Option Nat := readFrom 0 digits

/-- The number written by one digit or more, which a plus sign may precede, if it fits 32 bits. -/
def readWord? (text : List Char) : Option UInt32 :=
  let digits := if text.head? == some '+' then text.tail else text
  if digits.isEmpty then none
  else (read? digits).bind fun n => if n < UInt32.size then some (UInt32.ofNat n) else none

/-- Whether a byte is the code of a digit, in either case. -/
def isDigitByte (b : UInt8) : Bool :=
  ('0'.toUInt8 ≤ b && b ≤ '9'.toUInt8) || ('a'.toUInt8 ≤ b && b ≤ 'f'.toUInt8) ||
    ('A'.toUInt8 ≤ b && b ≤ 'F'.toUInt8)

end Unroller.Text.Hex
