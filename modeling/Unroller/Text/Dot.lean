/-!
# Text inside DOT string literals

`escape` puts a backslash before each character that DOT would interpret, writes a line feed as
`\n`, and drops carriage returns.  It replaces one character after another in the whole text.
`label` writes a list of lines, each closed by `\l`, the left-justified line break of DOT labels.
-/

namespace Unroller.Text.Dot

/-- The text with `new` in the place of every `c`. -/
def replace (c : Char) (new : List Char) (text : List Char) : List Char :=
  text.flatMap fun x => if x = c then new else [x]

/-- The characters that are replaced, in the order in which this is done, and what is written for
them.  The backslash comes first, since the others write backslashes. -/
def replacements : List (Char × List Char) :=
  [('\\', ['\\', '\\']), ('"', ['\\', '"']), ('\n', ['\\', 'n']), ('\r', []), ('<', ['\\', '<']),
    ('>', ['\\', '>']), ('\x7b', ['\\', '\x7b']), ('\x7d', ['\\', '\x7d'])]

/-- The written form of a text. -/
def escape (text : List Char) : List Char :=
  replacements.foldl (fun text r => replace r.1 r.2 text) text

/-- The written form of a list of lines. -/
def label (lines : List (List Char)) : List Char :=
  lines.flatMap fun line => escape line ++ ['\\', 'l']

/-- `escape` on strings. -/
def escapeString (text : String) : String := String.ofList (escape text.toList)

/-- `label` on strings. -/
def labelString (lines : List String) : String :=
  String.ofList (label (lines.map String.toList))

end Unroller.Text.Dot
