import Mathlib.Tactic
import Unroller.Text.Dot

/-!
# Reading DOT text back

A DOT reader goes through a text from left to right.  A backslash and the character after it are one
*pair*; every other character stands for itself; and a double quote that is not in a pair ends the
literal.

* `escape_eq_flatMap`: the replacements made one after another are one replacement per character.
* `odd_backslashes`: a quote, bracket or brace in the written form always has an odd number of
  backslashes before it.
* `literal?_escape_append`: so a literal does not end within a written text, and `read_escape`: what
  is read in it is the text without its carriage returns.
* `readLines_label`: a label is read as its lines.
-/

namespace Unroller.Text.Dot

variable {c : Char} {s t rest : List Char}

/-! ## One character at a time -/

/-- Quotes, brackets and braces, which DOT interprets. -/
def delimiters : List Char := ['"', '<', '>', '\x7b', '\x7d']

/-- The written form of one character. -/
def escapeChar (c : Char) : List Char :=
  if c = '\n' then ['\\', 'n']
  else if c = '\r' then []
  else if c = '\\' ∨ c ∈ delimiters then ['\\', c]
  else [c]

theorem replace_append (c : Char) (new s t : List Char) :
    replace c new (s ++ t) = replace c new s ++ replace c new t := by
  simp [replace]

theorem escape_append (s t : List Char) : escape (s ++ t) = escape s ++ escape t := by
  simp [escape, replacements, replace_append]

/-- No replacement touches what another one has written for the same character. -/
theorem escape_singleton (c : Char) : escape [c] = escapeChar c := by
  by_cases hmem : c ∈ replacements.map Prod.fst
  · fin_cases hmem <;> rfl
  · simp only [replacements, List.map_cons, List.map_nil, List.mem_cons, List.not_mem_nil, or_false,
      not_or] at hmem
    simp [escape, replacements, replace, escapeChar, delimiters, hmem]

/-- **The replacements** one after another are one replacement per character. -/
theorem escape_eq_flatMap (s : List Char) : escape s = s.flatMap escapeChar := by
  induction s with
  | nil => rfl
  | cons c s ih => rw [← List.singleton_append, escape_append, escape_singleton, ih,
      List.flatMap_append, List.flatMap_singleton]

theorem escape_cons (c : Char) (s : List Char) : escape (c :: s) = escapeChar c ++ escape s := by
  rw [escape_eq_flatMap, escape_eq_flatMap, List.flatMap_cons]

/-- What is written for a character: nothing, a pair, or the character itself. -/
theorem escapeChar_cases (c : Char) :
    (c = '\r' ∧ escapeChar c = []) ∨
      (c = '\n' ∧ escapeChar c = ['\\', 'n']) ∨
      ((c = '\\' ∨ c ∈ delimiters) ∧ c ≠ '\n' ∧ c ≠ '\r' ∧ escapeChar c = ['\\', c]) ∨
      (c ≠ '\\' ∧ c ∉ delimiters ∧ c ≠ '\n' ∧ c ≠ '\r' ∧ escapeChar c = [c]) := by
  unfold escapeChar
  split
  · tauto
  · split
    · tauto
    · split <;> tauto

/-! ## Pairs and plain characters -/

/-- What a reader takes from a text at a time. -/
inductive Piece where
  /-- A backslash and the character after it. -/
  | pair (c : Char)
  /-- A character that is not part of a pair. -/
  | plain (c : Char)
deriving DecidableEq

namespace Piece

/-- The character that a piece stands for. -/
def char : Piece → Char
  | pair c => if c = 'n' then '\n' else c
  | plain c => c

end Piece

/-- The pieces of a text, from left to right. -/
def pieces : List Char → List Piece
  | [] => []
  | ['\\'] => [.plain '\\']
  | '\\' :: c :: rest => .pair c :: pieces rest
  | c :: rest => .plain c :: pieces rest

/-- What a text says. -/
def read (text : List Char) : List Char := (pieces text).map Piece.char

theorem pieces_pair (c : Char) (rest : List Char) :
    pieces ('\\' :: c :: rest) = .pair c :: pieces rest := by
  rw [pieces]

theorem pieces_plain (h : c ≠ '\\') (rest : List Char) :
    pieces (c :: rest) = .plain c :: pieces rest := by
  conv_lhs => unfold pieces
  split <;> simp_all

/-- No pair reaches over the end of what is written for a character. -/
theorem pieces_escapeChar_append (c : Char) (rest : List Char) :
    pieces (escapeChar c ++ rest) = pieces (escapeChar c) ++ pieces rest := by
  rcases escapeChar_cases c with ⟨-, h⟩ | ⟨-, h⟩ | ⟨-, -, -, h⟩ | ⟨hc, -, -, -, h⟩ <;> rw [h]
  · rfl
  · exact pieces_pair 'n' rest
  · exact pieces_pair c rest
  · rw [pieces_plain hc []]
    exact pieces_plain hc rest

/-- So what follows a written text is read as if it stood alone. -/
theorem pieces_escape_append (s rest : List Char) :
    pieces (escape s ++ rest) = pieces (escape s) ++ pieces rest := by
  induction s generalizing rest with
  | nil => rfl
  | cons c s ih =>
    rw [escape_cons, List.append_assoc, pieces_escapeChar_append, ih, pieces_escapeChar_append,
      List.append_assoc]

theorem read_escapeChar (c : Char) : read (escapeChar c) = [c].filter (· ≠ '\r') := by
  rcases escapeChar_cases c with ⟨rfl, h⟩ | ⟨rfl, h⟩ | ⟨hc, hn, hr, h⟩ | ⟨hc, -, hn, hr, h⟩ <;>
    rw [h]
  · rfl
  · rfl
  · have hne : c ≠ 'n' := by
      rintro rfl
      simp [delimiters] at hc
    simp [read, pieces, Piece.char, hne, hr]
  · simp [read, pieces_plain hc, pieces, Piece.char, hr]

/-- **Reading** what was written gives the text without its carriage returns. -/
theorem read_escape (s : List Char) : read (escape s) = s.filter (· ≠ '\r') := by
  induction s with
  | nil => rfl
  | cons c s ih =>
    have hread : read (escape (c :: s)) = read (escapeChar c) ++ read (escape s) := by
      rw [read, escape_cons, pieces_escapeChar_append, List.map_append]
      rfl
    rw [hread, read_escapeChar, ih, ← List.filter_append, List.singleton_append]

/-! ## Lines -/

/-- The lines of a label, each closed by the pair `\l`; `none` when something is left after the last
one. -/
def linesOf : List Piece → Option (List (List Char))
  | [] => some []
  | .pair 'l' :: rest => (linesOf rest).map ([] :: ·)
  | p :: rest =>
    match linesOf rest with
    | some (line :: lines) => some ((p.char :: line) :: lines)
    | _ => none

/-- What a label says. -/
def readLines (text : List Char) : Option (List (List Char)) := linesOf (pieces text)

theorem linesOf_cons {p : Piece} (h : p ≠ .pair 'l') (rest : List Piece) {line : List Char}
    {lines : List (List Char)} (hrest : linesOf rest = some (line :: lines)) :
    linesOf (p :: rest) = some ((p.char :: line) :: lines) := by
  conv_lhs => unfold linesOf
  split <;> simp_all

/-- Pieces that do not end a line belong to the first one. -/
theorem linesOf_append {ps rest : List Piece} (h : Piece.pair 'l' ∉ ps) {line : List Char}
    {lines : List (List Char)} (hrest : linesOf rest = some (line :: lines)) :
    linesOf (ps ++ rest) = some ((ps.map Piece.char ++ line) :: lines) := by
  induction ps with
  | nil => exact hrest
  | cons p ps ih =>
    rw [List.mem_cons, not_or] at h
    exact linesOf_cons (Ne.symm h.1) _ (ih h.2)

/-- A written text holds no pair that ends a line: the letter `l` is written as itself. -/
theorem pair_notMem_pieces_escape (s : List Char) : Piece.pair 'l' ∉ pieces (escape s) := by
  induction s with
  | nil => simp [escape, replacements, replace, pieces]
  | cons c s ih =>
    rw [escape_cons, pieces_escapeChar_append, List.mem_append, not_or]
    refine ⟨?_, ih⟩
    rcases escapeChar_cases c with ⟨-, h⟩ | ⟨-, h⟩ | ⟨hc, -, -, h⟩ | ⟨hc, -, -, -, h⟩ <;> rw [h]
    · simp [pieces]
    · simp [pieces]
    · have hne : c ≠ 'l' := by
        rintro rfl
        simp [delimiters] at hc
      simp [pieces, hne.symm]
    · simp [pieces_plain hc, pieces]

/-- **A label** is read as its lines. -/
theorem readLines_label (lines : List (List Char)) :
    readLines (label lines) = some (lines.map fun line => line.filter (· ≠ '\r')) := by
  induction lines with
  | nil => rfl
  | cons line lines ih =>
    have hend : linesOf (pieces ('\\' :: 'l' :: label lines)) =
        some ([] :: lines.map fun line => line.filter (· ≠ '\r')) := by
      rw [pieces_pair, linesOf]
      exact congrArg (Option.map _) ih
    have htext : label (line :: lines) = escape line ++ '\\' :: 'l' :: label lines := by
      simp [label]
    rw [readLines, htext, pieces_escape_append,
      linesOf_append (pair_notMem_pieces_escape line) hend, List.append_nil, ← read,
      read_escape, List.map_cons]

/-! ## The end of a literal -/

/-- The text of a literal whose opening quote has been read, and what follows its closing quote. -/
def literal? : List Char → Option (List Char × List Char)
  | [] => none
  | '"' :: rest => some ([], rest)
  | '\\' :: c :: rest => (literal? rest).map fun r => ('\\' :: c :: r.1, r.2)
  | c :: rest => (literal? rest).map fun r => (c :: r.1, r.2)

/-- What is written for a character does not end a literal. -/
theorem literal?_escapeChar_append (c : Char) (rest : List Char) :
    literal? (escapeChar c ++ rest) = (literal? rest).map fun r => (escapeChar c ++ r.1, r.2) := by
  rcases escapeChar_cases c with ⟨-, h⟩ | ⟨-, h⟩ | ⟨-, -, -, h⟩ | ⟨hc, hd, -, -, h⟩ <;> rw [h]
  · simp
  · simp [literal?]
  · simp [literal?]
  · have hquote : c ≠ '"' := by
      rintro rfl
      simp [delimiters] at hd
    have hplain : literal? (c :: rest) = (literal? rest).map fun r => (c :: r.1, r.2) := by
      conv_lhs => unfold literal?
      split <;> simp_all
    exact hplain

theorem literal?_escape_append (s rest : List Char) :
    literal? (escape s ++ rest) = (literal? rest).map fun r => (escape s ++ r.1, r.2) := by
  induction s with
  | nil => simp [escape, replacements, replace]
  | cons c s ih =>
    rw [escape_cons, List.append_assoc, literal?_escapeChar_append, ih, Option.map_map]
    simp [Function.comp_def]

theorem literal?_label_append (lines : List (List Char)) (rest : List Char) :
    literal? (label lines ++ rest) = (literal? rest).map fun r => (label lines ++ r.1, r.2) := by
  induction lines with
  | nil => simp [label]
  | cons line lines ih =>
    have htext : label (line :: lines) ++ rest =
        escape line ++ '\\' :: 'l' :: (label lines ++ rest) := by
      simp [label]
    rw [htext, literal?_escape_append, literal?, ih, Option.map_map, Option.map_map]
    simp [label, Function.comp_def]

/-! ## Backslashes before a delimiter -/

/-- The number of backslashes at the end of a text. -/
def backslashes (text : List Char) : Nat := (text.reverse.takeWhile (· == '\\')).length

/-- An even number of backslashes in front does not change the parity. -/
theorem odd_backslashes_append (h : Even (backslashes s)) :
    Odd (backslashes (s ++ t)) ↔ Odd (backslashes t) := by
  simp only [backslashes, List.reverse_append, List.takeWhile_append] at h ⊢
  split
  · rename_i hall
    rw [List.length_append, Nat.odd_add, hall]
    tauto
  · rfl

theorem even_backslashes_escapeChar (c : Char) : Even (backslashes (escapeChar c)) := by
  rcases escapeChar_cases c with ⟨-, h⟩ | ⟨-, h⟩ | ⟨hc, -, -, h⟩ | ⟨hc, -, -, -, h⟩ <;> rw [h]
  · decide
  · decide
  · by_cases hb : c = '\\'
    · subst hb
      decide
    · simp [backslashes, hb]
  · simp [backslashes, hc]

theorem eq_of_pair_eq {x : Char} {before after : List Char}
    (h : ['\\', x] = before ++ c :: after) (hc : c ≠ '\\') : before = ['\\'] := by
  cases before with
  | nil => exact absurd (List.cons_eq_cons.1 h).1.symm hc
  | cons b before =>
    obtain ⟨rfl, h⟩ := List.cons_eq_cons.1 h
    cases before with
    | nil => rfl
    | cons => simp at h

/-- A delimiter is written right after one backslash. -/
theorem eq_of_escapeChar_eq {x : Char} {before after : List Char}
    (h : escapeChar x = before ++ c :: after) (hc : c ∈ delimiters) : before = ['\\'] := by
  have hslash : c ≠ '\\' := by
    rintro rfl
    simp [delimiters] at hc
  rcases escapeChar_cases x with ⟨-, hx⟩ | ⟨-, hx⟩ | ⟨-, -, -, hx⟩ | ⟨-, hd, -, -, hx⟩ <;>
    rw [hx] at h
  · simp at h
  · exact eq_of_pair_eq h hslash
  · exact eq_of_pair_eq h hslash
  · cases before with
    | nil => exact absurd hc ((List.cons_eq_cons.1 h).1 ▸ hd)
    | cons => simp at h

/-- **A delimiter** in a written text has an odd number of backslashes before it. -/
theorem odd_backslashes {before after : List Char} (h : escape s = before ++ c :: after)
    (hc : c ∈ delimiters) : Odd (backslashes before) := by
  induction s generalizing before with
  | nil => simp [escape, replacements, replace] at h
  | cons x s ih =>
    rw [escape_cons] at h
    have heven := even_backslashes_escapeChar x
    rcases List.append_eq_append_iff.1 h with ⟨more, rfl, hrest⟩ | ⟨more, hchar, hrest⟩
    · exact (odd_backslashes_append heven).2 (ih hrest)
    · cases more with
      | nil =>
        rw [List.append_nil] at hchar
        rw [List.nil_append] at hrest
        have hnone : escape s = [] ++ c :: after := by rw [List.nil_append, hrest]
        rw [← hchar, ← List.append_nil (escapeChar x)]
        exact (odd_backslashes_append heven).2 (ih hnone)
      | cons y more =>
        obtain ⟨rfl, -⟩ := List.cons_eq_cons.1 hrest
        rw [eq_of_escapeChar_eq hchar hc]
        decide

theorem ne_of_mem_escape {x : Char} (h : x ∈ escape s) : x ≠ '\n' ∧ x ≠ '\r' := by
  rw [escape_eq_flatMap] at h
  obtain ⟨c, -, hx⟩ := List.mem_flatMap.1 h
  rcases escapeChar_cases c with ⟨-, hc⟩ | ⟨-, hc⟩ | ⟨-, hn, hr, hc⟩ | ⟨-, -, hn, hr, hc⟩ <;>
    rw [hc] at hx
  · simp at hx
  · simp only [List.mem_cons, List.not_mem_nil, or_false] at hx
    rcases hx with rfl | rfl <;> decide
  · simp only [List.mem_cons, List.not_mem_nil, or_false] at hx
    rcases hx with rfl | rfl
    · decide
    · exact ⟨hn, hr⟩
  · obtain rfl := List.mem_singleton.1 hx
    exact ⟨hn, hr⟩

/-! ## Strings -/

/-- **The written form is unambiguous.**  For every string: the replacements one after another are
one replacement per character; the result holds no line break, and an odd number of backslashes
before every quote, bracket and brace, so that between double quotes it ends at the closing one; and
it reads as the string without its carriage returns.  A label is read as its lines in the same way,
whatever they hold. -/
theorem escapeString_unambiguous :
    (∀ s : String, (escapeString s).toList = s.toList.flatMap escapeChar) ∧
      (∀ s : String, '\n' ∉ (escapeString s).toList ∧ '\r' ∉ (escapeString s).toList) ∧
      (∀ (s : String) (before after : List Char) (c : Char),
        (escapeString s).toList = before ++ c :: after → c ∈ delimiters →
          Odd (backslashes before)) ∧
      (∀ (s : String) (rest : List Char),
        literal? ((escapeString s).toList ++ '"' :: rest) = some ((escapeString s).toList, rest)) ∧
      (∀ s : String, read (escapeString s).toList = s.toList.filter (· ≠ '\r')) ∧
      (∀ (lines : List String) (rest : List Char),
        literal? ((labelString lines).toList ++ '"' :: rest) =
          some ((labelString lines).toList, rest)) ∧
      ∀ lines : List String, readLines (labelString lines).toList =
        some (lines.map fun line => line.toList.filter (· ≠ '\r')) := by
  simp only [escapeString, labelString, String.toList_ofList]
  refine ⟨fun s => escape_eq_flatMap _, fun s => ⟨?_, ?_⟩,
    fun s before after c h hc => odd_backslashes h hc, fun s rest => ?_, fun s => read_escape _,
    fun lines rest => ?_, fun lines => ?_⟩
  · exact fun h => (ne_of_mem_escape h).1 rfl
  · exact fun h => (ne_of_mem_escape h).2 rfl
  · simp [literal?_escape_append, literal?]
  · simp [literal?_label_append, literal?]
  · simpa [Function.comp_def] using readLines_label (lines.map String.toList)

/-- A line that ends in a backslash, and one that spells out the end of a line. -/
example : readLines (labelString ["a\\", "\\l"]).toList =
    some ["a\\".toList, "\\l".toList] := by decide

end Unroller.Text.Dot
