import Mathlib.Tactic
import Unroller.AllowList
import Unroller.Proofs.FunctionHash
import Unroller.Proofs.Text.Blank

/-!
# Which texts are allow-lists

A line, once trimmed, is *accepted* when it is empty, a comment or the text of an identity.  The
parser goes through the lines in order and stops at the first one that is not accepted.

* `parseLines_of_accepted`: accepted lines give the list of the identities they denote.
* `parseLines_of_rejected`: the first line that is not accepted is named in the fault.
* `Writes`: the lines that write a list of identities, blank lines and comments in between.
* `parse_exact`: what a text is read as, and that a written one is read as what was written.
-/

namespace Unroller

open Text

variable {c : Char} {h : FunctionHash} {l : AllowList} {line : List Char}
  {lines before after : List (List Char)}

/-- A digit is neither a blank nor the mark of a comment. -/
theorem Text.Hex.IsDigit.plain (hc : Hex.IsDigit c) : ¬ isBlank c = true ∧ c ≠ '#' := by
  have hascii : ∀ n < 128, Hex.IsDigit (Char.ofNat n) →
      ¬ isBlank (Char.ofNat n) = true ∧ Char.ofNat n ≠ '#' := by
    decide +kernel
  simpa using hascii c.toNat (Hex.toNat_lt_of_isDigit hc) (by simpa using hc)

namespace AllowList

/-! ## Sets -/

theorem contains_insert (l : AllowList) (f h : FunctionHash) :
    (l.insert f).contains h = true ↔ h = f ∨ l.contains h = true := by
  simp [contains, insert]

theorem nodup_insert (hl : l.functions.Nodup) (f : FunctionHash) :
    (l.insert f).functions.Nodup := hl.insert

theorem contains_foldl_insert (hashes : List FunctionHash) (l : AllowList) :
    (hashes.foldl insert l).contains h = true ↔ h ∈ hashes ∨ l.contains h = true := by
  induction hashes generalizing l with
  | nil => simp
  | cons f hashes ih =>
    rw [List.foldl_cons, ih, contains_insert, List.mem_cons]
    tauto

theorem nodup_foldl_insert (hashes : List FunctionHash) (hl : l.functions.Nodup) :
    (hashes.foldl insert l).functions.Nodup := by
  induction hashes generalizing l with
  | nil => exact hl
  | cons f hashes ih => exact ih (nodup_insert hl f)

theorem contains_ofList (hashes : List FunctionHash) :
    (ofList hashes).contains h = true ↔ h ∈ hashes := by
  rw [ofList, contains_foldl_insert]
  simp [contains]

theorem nodup_ofList (hashes : List FunctionHash) : (ofList hashes).functions.Nodup :=
  nodup_foldl_insert hashes List.nodup_nil

/-! ## Lines -/

/-- What a trimmed line may be. -/
def Accepted (line : List Char) : Prop :=
  line = [] ∨ line.head? = some '#' ∨ FunctionHash.IsText line

theorem isIgnored_iff : isIgnored line = true ↔ line = [] ∨ line.head? = some '#' := by
  simp [isIgnored]

/-- The text of an identity is not taken for a comment. -/
theorem not_isIgnored_of_isText (hline : FunctionHash.IsText line) :
    ¬ isIgnored line = true := by
  rw [isIgnored_iff]
  rintro (rfl | hhead)
  · simp [FunctionHash.IsText] at hline
  · exact (hline.2 '#' (List.mem_of_mem_head? hhead)).plain.2 rfl

theorem accepted_iff : Accepted line ↔
    isIgnored line = true ∨ ∃ h, FunctionHash.ofDigits? line = some h := by
  rw [Accepted, isIgnored_iff, ← FunctionHash.isSome_ofDigits?_iff, Option.isSome_iff_exists]
  tauto

/-- The identities that lines denote, in order. -/
def entries (lines : List (List Char)) : List FunctionHash :=
  lines.filterMap fun line => FunctionHash.ofDigits? (trim line)

theorem mem_entries : h ∈ entries lines ↔ ∃ line ∈ lines, FunctionHash.Denotes (trim line) h := by
  simp [entries, FunctionHash.ofDigits?_eq_some_iff]

/-- Accepted lines add what they denote. -/
theorem parseLines_append (l : AllowList) (number : Nat) (after : List (List Char))
    (hlines : ∀ line ∈ lines, Accepted (trim line)) :
    parseLines l number (lines ++ after) =
      parseLines ((entries lines).foldl insert l) (number + lines.length) after := by
  induction lines generalizing l number with
  | nil => rfl
  | cons line lines ih =>
    obtain ⟨hline, hlines⟩ := List.forall_mem_cons.1 hlines
    have hnumber : number + 1 + lines.length = number + (line :: lines).length := by
      rw [List.length_cons]
      omega
    rw [List.cons_append, parseLines]
    cases hread : FunctionHash.ofDigits? (trim line) with
    | none =>
      have hignored : isIgnored (trim line) = true := by
        simpa [hread] using accepted_iff.1 hline
      rw [if_pos hignored, ih _ _ hlines, hnumber]
      simp [entries, hread]
    | some f =>
      have htext := (FunctionHash.ofDigits?_eq_some_iff.1 hread).1
      rw [if_neg (not_isIgnored_of_isText htext)]
      simp only [ih _ _ hlines, hnumber, entries, List.filterMap_cons, hread, List.foldl_cons]

theorem parseLines_of_accepted (l : AllowList) (number : Nat)
    (hlines : ∀ line ∈ lines, Accepted (trim line)) :
    parseLines l number lines = .ok ((entries lines).foldl insert l) := by
  simpa [parseLines] using parseLines_append l number [] hlines

theorem parseLines_of_rejected (l : AllowList) (number : Nat)
    (hbefore : ∀ line ∈ before, Accepted (trim line)) (hline : ¬ Accepted (trim line)) :
    parseLines l number (before ++ line :: after) =
      .error (.badAllowListLine (number + before.length) (String.ofList (trim line))) := by
  rw [parseLines_append l number _ hbefore, parseLines]
  rw [accepted_iff, not_or, not_exists] at hline
  simp only [if_neg hline.1]
  cases hread : FunctionHash.ofDigits? (trim line) with
  | none => rfl
  | some f => exact absurd hread (hline.2 f)

/-- Lines are all accepted, or there is a first one that is not. -/
theorem accepted_or_rejected (lines : List (List Char)) :
    (∀ line ∈ lines, Accepted (trim line)) ∨ ∃ before line after, lines = before ++ line :: after ∧
      (∀ line ∈ before, Accepted (trim line)) ∧ ¬ Accepted (trim line) := by
  induction lines with
  | nil => exact .inl (by simp)
  | cons line lines ih =>
    by_cases hline : Accepted (trim line)
    · rcases ih with hall | ⟨before, bad, after, rfl, hbefore, hbad⟩
      · exact .inl (List.forall_mem_cons.2 ⟨hline, hall⟩)
      · exact .inr ⟨line :: before, bad, after, rfl, List.forall_mem_cons.2 ⟨hline, hbefore⟩, hbad⟩
    · exact .inr ⟨[], line, lines, rfl, by simp, hline⟩

/-! ## Written lists -/

/-- The lines write the identities in order, each with blanks around it or not, and otherwise hold
blank lines and comments. -/
inductive Writes : List FunctionHash → List (List Char) → Prop where
  | nil : Writes [] []
  | hash {hashes : List FunctionHash} {lines : List (List Char)} (h : FunctionHash)
      (before after : List Char) (hbefore : ∀ c ∈ before, isBlank c = true)
      (hafter : ∀ c ∈ after, isBlank c = true) (writes : Writes hashes lines) :
      Writes (h :: hashes) ((before ++ h.digits ++ after) :: lines)
  | blank {hashes : List FunctionHash} {lines : List (List Char)} (line : List Char)
      (hline : ∀ c ∈ line, isBlank c = true) (writes : Writes hashes lines) :
      Writes hashes (line :: lines)
  | comment {hashes : List FunctionHash} {lines : List (List Char)} (before text : List Char)
      (hbefore : ∀ c ∈ before, isBlank c = true) (writes : Writes hashes lines) :
      Writes hashes ((before ++ '#' :: text) :: lines)

theorem trim_digits (h : FunctionHash) : trim h.digits = h.digits :=
  trim_eq_self fun c hc => ((FunctionHash.denotes_digits h).1.2 c hc).plain.1

/-- Written lines are accepted and denote what was written. -/
theorem Writes.accepted {hashes : List FunctionHash} (hwrites : Writes hashes lines) :
    (∀ line ∈ lines, Accepted (trim line)) ∧ entries lines = hashes := by
  induction hwrites with
  | nil => exact ⟨by simp, rfl⟩
  | hash h before after hbefore hafter _ ih =>
    have htrim : trim (before ++ h.digits ++ after) = h.digits := by
      rw [trim_append_blank hafter, trim_blank_append hbefore, trim_digits]
    have hdenotes := FunctionHash.denotes_digits h
    refine ⟨List.forall_mem_cons.2 ⟨.inr (.inr ?_), ih.1⟩, ?_⟩
    · rw [htrim]
      exact hdenotes.1
    rw [entries, List.filterMap_cons, htrim, FunctionHash.ofDigits?_eq_some_iff.2 hdenotes]
    exact congrArg (h :: ·) ih.2
  | blank line hline _ ih =>
    have htrim : trim line = [] := trim_eq_nil hline
    refine ⟨List.forall_mem_cons.2 ⟨.inl htrim, ih.1⟩, ?_⟩
    rw [entries, List.filterMap_cons, htrim]
    exact ih.2
  | comment before text hbefore _ ih =>
    have hhead : (trim (before ++ '#' :: text)).head? = some '#' := by
      rw [trim_blank_append hbefore, head?_trim_cons (by decide)]
    have hnone : FunctionHash.ofDigits? (trim (before ++ '#' :: text)) = none := by
      by_contra hsome
      have htext := FunctionHash.isSome_ofDigits?_iff.1 (Option.isSome_iff_ne_none.2 hsome)
      exact not_isIgnored_of_isText htext (isIgnored_iff.2 (.inr hhead))
    refine ⟨List.forall_mem_cons.2 ⟨.inr (.inl hhead), ih.1⟩, ?_⟩
    rw [entries, List.filterMap_cons, hnone]
    exact ih.2

theorem parse_of_accepted {text : String}
    (hlines : ∀ line ∈ Text.lines text.toList, Accepted (trim line)) :
    parse text = .ok (ofList (entries (Text.lines text.toList))) :=
  parseLines_of_accepted {} 1 hlines

theorem parse_of_rejected {text : String}
    (hlines : Text.lines text.toList = before ++ line :: after)
    (hbefore : ∀ line ∈ before, Accepted (trim line)) (hline : ¬ Accepted (trim line)) :
    parse text =
      .error (.badAllowListLine (before.length + 1) (String.ofList (trim line))) := by
  rw [parse, hlines, parseLines_of_rejected {} 1 hbefore hline, Nat.add_comm]

/-- **A written list** is read as the set of what was written. -/
theorem parse_of_writes {hashes : List FunctionHash} (hwrites : Writes hashes lines)
    (hlines : ∀ line ∈ lines, '\n' ∉ line) :
    parse (String.ofList (['\n'].intercalate lines)) = .ok (ofList hashes) := by
  obtain ⟨last, hlast, hnil⟩ := map_trim_lines_intercalate hlines
  obtain ⟨haccepted, hentries⟩ := hwrites.accepted
  -- both sides go by the trimmed lines, and a last empty one says nothing
  have hlast' : last.filterMap FunctionHash.ofDigits? = [] := by
    rw [List.filterMap_eq_nil_iff]
    intro line hline
    rw [hnil line hline]
    rfl
  have hsame : entries (Text.lines (['\n'].intercalate lines)) = hashes := by
    rw [← hentries, entries, entries, ← Function.comp_def, ← List.filterMap_map, ←
      List.filterMap_map, hlast, List.filterMap_append, hlast', List.append_nil]
  have hall : ∀ line ∈ Text.lines (['\n'].intercalate lines), Accepted (trim line) := by
    intro line hline
    have hmem : trim line ∈ lines.map trim := by
      rw [hlast]
      exact List.mem_append_left _ (List.mem_map_of_mem hline)
    obtain ⟨other, hother, heq⟩ := List.mem_map.1 hmem
    exact heq ▸ haccepted other hother
  rw [parse, String.toList_ofList, parseLines_of_accepted {} 1 hall, hsame]
  rfl

/-! ## The format -/

/-- **The format of allow-lists.**  A text is read exactly when each of its lines, once trimmed, is
empty, a comment or eight hexadecimal digits; the list then holds the identities that its lines
denote, each once.  Otherwise the fault names the number, counted from one, and the trimmed text of
the first line that is none of these.  And the lines that write a set, in any order and with
repetitions, blank lines and comments between them, are read as that set; a line end may have a
carriage return, which is a blank, and the last line a line end, which adds a blank line. -/
theorem parse_exact :
    (∀ text : String, (∃ l, parse text = .ok l) ↔
      ∀ line ∈ Text.lines text.toList, Accepted (trim line)) ∧
    (∀ (text : String) (l : AllowList), parse text = .ok l → l.functions.Nodup ∧
      ∀ h, l.contains h = true ↔
        ∃ line ∈ Text.lines text.toList, FunctionHash.Denotes (trim line) h) ∧
    (∀ (text : String) (fault : ConfigFault), parse text = .error fault ↔
      ∃ before line after, Text.lines text.toList = before ++ line :: after ∧
        (∀ line ∈ before, Accepted (trim line)) ∧ ¬ Accepted (trim line) ∧
        fault = .badAllowListLine (before.length + 1) (String.ofList (trim line)) ∧
        fault.message = "allow-list line " ++ toString (before.length + 1) ++ ": '" ++
          String.ofList (trim line) ++ "' is not a function id") ∧
    ∀ (hashes : Finset FunctionHash) (order : List FunctionHash) (lines : List (List Char)),
      order.toFinset = hashes → Writes order lines → (∀ line ∈ lines, '\n' ∉ line) →
        ∃ l, parse (String.ofList (['\n'].intercalate lines)) = .ok l ∧ l.functions.Nodup ∧
          l.functions.toFinset = hashes := by
  have hcases := fun text : String => accepted_or_rejected (Text.lines text.toList)
  refine ⟨fun text => ⟨?read, fun hall => ⟨_, parse_of_accepted hall⟩⟩, fun text l hl => ?holds,
    fun text fault => ⟨?fault, ?first⟩, ?written⟩
  case read =>
    rintro ⟨l, hl⟩
    rcases hcases text with hall | ⟨before, line, after, heq, hbefore, hline⟩
    · exact hall
    · rw [parse_of_rejected heq hbefore hline] at hl
      cases hl
  case holds =>
    rcases hcases text with hall | ⟨before, line, after, heq, hbefore, hline⟩
    · rw [parse_of_accepted hall] at hl
      obtain rfl := Except.ok.inj hl
      exact ⟨nodup_ofList _, fun h => by rw [contains_ofList, mem_entries]⟩
    · rw [parse_of_rejected heq hbefore hline] at hl
      cases hl
  case fault =>
    intro hfault
    rcases hcases text with hall | ⟨before, line, after, heq, hbefore, hline⟩
    · rw [parse_of_accepted hall] at hfault
      cases hfault
    · rw [parse_of_rejected heq hbefore hline] at hfault
      obtain rfl := Except.error.inj hfault
      exact ⟨before, line, after, heq, hbefore, hline, rfl, rfl⟩
  case first =>
    rintro ⟨before, line, after, heq, hbefore, hline, rfl, -⟩
    exact parse_of_rejected heq hbefore hline
  case written =>
    rintro _ order lines rfl hwrites hlines
    refine ⟨_, parse_of_writes hwrites hlines, nodup_ofList order, ?_⟩
    ext h
    rw [List.mem_toFinset, List.mem_toFinset, ← contains_ofList order]
    simp [contains]

end AllowList

end Unroller
