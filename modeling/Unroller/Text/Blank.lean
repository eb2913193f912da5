/-!
# Blank characters and lines

`isBlank` is the Unicode property White_Space.  `trim` removes blanks at both ends, and `lines`
cuts a text after each line feed: a carriage return right before the line feed belongs to the line
end, and a text that ends with a line feed has no empty last line.
-/

namespace Unroller.Text

/-- The ranges of the property White_Space, ends included, in ascending order. -/
def blankRanges : List (Nat × Nat) :=
  [(0x9, 0xD), (0x20, 0x20), (0x85, 0x85), (0xA0, 0xA0), (0x1680, 0x1680), (0x2000, 0x200A),
    (0x2028, 0x2029), (0x202F, 0x202F), (0x205F, 0x205F), (0x3000, 0x3000)]

/-- Whether a character is white space. -/
def isBlank (c : Char) : Bool :=
  blankRanges.any fun r => r.1 ≤ c.toNat && c.toNat ≤ r.2

/-- The text without the blanks at its two ends. -/
def trim (text : List Char) : List Char :=
  ((text.dropWhile isBlank).reverse.dropWhile isBlank).reverse

/-- The line without a carriage return at its end. -/
def dropReturn (line : List Char) : List Char :=
  if line.getLast? = some '\r' then line.dropLast else line

/-- Cuts a text at its line feeds; `acc` holds the current line, reversed. -/
def linesFrom (acc : List Char) : List Char → List (List Char)
  | [] => if acc.isEmpty then [] else [acc.reverse]
  | c :: rest =>
    if c = '\n' then dropReturn acc.reverse :: linesFrom [] rest else linesFrom (c :: acc) rest

/-- The lines of a text. -/
def lines (text : List Char) : List (List Char) := linesFrom [] text

end Unroller.Text
