import Mathlib.Tactic
import Mathlib.Data.List.DropRight
import Unroller.Text.Blank

/-!
# Trimmed lines

* `trim_append_blank`, `trim_blank_append`: blanks at either end do not matter to `trim`, so a
  carriage return before a line feed does not either (`trim_dropReturn`).
* `trim_eq_self`: a text without blanks is its own trimmed form.
* `map_trim_lines_intercalate`: texts put together with line feeds between them come back as the
  lines, up to an empty last one.
-/

namespace Unroller.Text

variable {c : Char} {line before after text : List Char}

/-! ## Trimming -/

theorem trim_eq_rdropWhile (text : List Char) :
    trim text = (text.dropWhile isBlank).rdropWhile isBlank := rfl

/-- Blanks in front, -/
theorem trim_blank_append (h : ∀ c ∈ before, isBlank c = true) (text : List Char) :
    trim (before ++ text) = trim text := by
  rw [trim_eq_rdropWhile, List.dropWhile_append_of_pos h, trim_eq_rdropWhile]

/-- and blanks behind are removed. -/
theorem trim_append_blank (h : ∀ c ∈ after, isBlank c = true) :
    trim (text ++ after) = trim text := by
  have hreverse : ∀ c ∈ after.reverse, isBlank c = true := fun c hc =>
    h c (List.mem_reverse.1 hc)
  simp only [trim, List.dropWhile_append]
  split
  · rename_i hempty
    rw [List.isEmpty_iff.1 hempty, List.dropWhile_eq_nil_iff.2 h]
  · rw [List.reverse_append, List.dropWhile_append_of_pos hreverse]

theorem trim_eq_nil (h : ∀ c ∈ text, isBlank c = true) : trim text = [] := by
  have htrim := trim_blank_append h []
  rwa [List.append_nil] at htrim

/-- A text without blanks is left as it is. -/
theorem trim_eq_self (h : ∀ c ∈ text, ¬ isBlank c = true) : trim text = text := by
  cases text with
  | nil => rfl
  | cons c text =>
    rw [trim_eq_rdropWhile, List.dropWhile_cons_of_neg (h c (List.mem_cons_self ..)),
      List.rdropWhile_eq_self_iff]
    exact fun hne => h _ (List.getLast_mem hne)

/-- The first character stays when it is not blank. -/
theorem head?_trim_cons (h : ¬ isBlank c = true) (text : List Char) :
    (trim (c :: text)).head? = some c := by
  rw [trim_eq_rdropWhile, List.dropWhile_cons_of_neg h]
  have hstart := List.rdropWhile_prefix isBlank (c :: text)
  cases hl : (c :: text).rdropWhile isBlank with
  | nil => exact absurd (List.rdropWhile_eq_nil_iff.1 hl c (List.mem_cons_self ..)) h
  | cons d rest =>
    rw [hl, List.cons_prefix_cons] at hstart
    rw [hstart.1, List.head?_cons]

/-- The carriage return of a line end is a blank like others. -/
theorem trim_dropReturn (line : List Char) : trim (dropReturn line) = trim line := by
  unfold dropReturn
  split
  · rename_i h
    conv_rhs => rw [← List.dropLast_append_getLast? '\r' h]
    rw [trim_append_blank]
    intro c hc
    rw [List.mem_singleton.1 hc]
    decide
  · rfl

/-! ## Lines -/

theorem linesFrom_append (acc : List Char) (h : '\n' ∉ line) (text : List Char) :
    linesFrom acc (line ++ text) = linesFrom (line.reverse ++ acc) text := by
  induction line generalizing acc with
  | nil => rfl
  | cons c line ih =>
    rw [List.mem_cons, not_or] at h
    rw [List.cons_append, linesFrom, if_neg (Ne.symm h.1), ih _ h.2]
    simp

/-- A line feed ends a line. -/
theorem lines_append_cons (h : '\n' ∉ line) (text : List Char) :
    lines (line ++ '\n' :: text) = dropReturn line :: lines text := by
  rw [lines, linesFrom_append [] h, linesFrom]
  simp [lines]

/-- What comes after the last line feed is a line when there is anything. -/
theorem lines_eq_of_notMem (h : '\n' ∉ line) : lines line = if line = [] then [] else [line] := by
  have hlines := linesFrom_append [] h []
  rw [List.append_nil] at hlines
  rw [lines, hlines, linesFrom]
  simp

/-- **Lines** put together come back up to blanks, an empty last one excepted. -/
theorem map_trim_lines_intercalate {ls : List (List Char)} (h : ∀ line ∈ ls, '\n' ∉ line) :
    ∃ last, ls.map trim = (lines (['\n'].intercalate ls)).map trim ++ last ∧
      ∀ line ∈ last, line = [] := by
  induction ls with
  | nil => exact ⟨[], rfl, by simp⟩
  | cons line ls ih =>
    obtain ⟨hline, hls⟩ := List.forall_mem_cons.1 h
    cases ls with
    | nil =>
      rw [List.intercalate_singleton, lines_eq_of_notMem hline]
      split
      · rename_i hnil
        exact ⟨[[]], by rw [hnil]; rfl, by simp⟩
      · exact ⟨[], rfl, by simp⟩
    | cons next ls =>
      obtain ⟨last, hlast, hnil⟩ := ih hls
      refine ⟨last, ?_, hnil⟩
      rw [List.intercalate_cons_cons, List.append_assoc, List.singleton_append,
        lines_append_cons hline, List.map_cons, hlast, List.map_cons, trim_dropReturn,
        List.cons_append]

end Unroller.Text
