import Mathlib.Tactic
import Mathlib.Data.Nat.Digits.Lemmas
import Unroller.AllowList

/-!
# The text of a function identity

An identity is written as eight hexadecimal digits.  Here the digits are given by a table, and the
number that a text denotes is the one with these digits in base sixteen.

* `Text.Hex.read?_eq_some_iff`: exactly the texts of hexadecimal digits are read, as that number.
* `Text.Hex.all_isDigitByte_iff`: the test of the bytes lets pass these texts and no other.
* `FunctionHash.ofDigits?_eq_some_iff`: so eight digits, in either case, and nothing else are an
  identity.
* `FunctionHash.denotes_digits`: the text written for an identity is one.
* `FunctionHash.text_exact`: reading undoes writing, and writing undoes reading up to case.
-/

namespace Unroller

namespace Text.Hex

variable {c : Char} {n : Nat} {text : List Char}

/-! ## Digits -/

/-- The hexadecimal digits in lower case, in the order of what they stand for. -/
def alphabet : List Char :=
  ['0', '1', '2', '3', '4', '5', '6', '7', '8', '9', 'a', 'b', 'c', 'd', 'e', 'f']

/-- A hexadecimal digit, in either case. -/
def IsDigit (c : Char) : Prop := c.toLower ∈ alphabet

instance : DecidablePred IsDigit := fun c => inferInstanceAs (Decidable (c.toLower ∈ alphabet))

/-- What a digit stands for. -/
def digitValue (c : Char) : Nat := alphabet.idxOf c.toLower

/-- The number with the given digits, the most significant first. -/
def number (text : List Char) : Nat := Nat.ofDigits 16 (text.reverse.map digitValue)

theorem value?_ascii : ∀ n < 128, value? (Char.ofNat n) =
    if IsDigit (Char.ofNat n) then some (digitValue (Char.ofNat n)) else none := by
  decide +kernel

theorem toNat_lt_of_isDigit (h : IsDigit c) : c.toNat < 128 := by
  have halphabet : ∀ d ∈ alphabet, d.toNat < 128 := by simp [alphabet]
  have hlower := halphabet _ h
  unfold Char.toLower at hlower
  split at hlower
  · rename_i hupper
    have hle : c.toNat ≤ 'Z'.toNat := hupper.2
    exact lt_of_le_of_lt hle (by decide)
  · exact hlower

/-- A digit is read as what it stands for, and nothing else is read. -/
theorem value?_eq (c : Char) : value? c = if IsDigit c then some (digitValue c) else none := by
  by_cases hc : c.toNat < 128
  · simpa using value?_ascii c.toNat hc
  · rw [if_neg fun h => hc (toNat_lt_of_isDigit h)]
    have hle : ∀ d : Char, d.toNat < 128 → ¬ c ≤ d := fun d hd hcd => by
      have : c.toNat ≤ d.toNat := hcd
      omega
    simp [value?, hle]

theorem digitValue_lt (h : IsDigit c) : digitValue c < 16 := List.idxOf_lt_length_iff.2 h

theorem isDigit_digit (n : Nat) : IsDigit (digit n) := by
  have h : ∀ d < 16, IsDigit (digit d) := by decide
  simpa [digit] using h (n % 16) (Nat.mod_lt n (by decide))

theorem digitValue_digit (n : Nat) : digitValue (digit n) = n % 16 := by
  have h : ∀ d < 16, digitValue (digit d) = d := by decide
  simpa [digit] using h (n % 16) (Nat.mod_lt n (by decide))

/-! ## Numbers -/

theorem number_cons (c : Char) (text : List Char) :
    number (c :: text) = digitValue c * 16 ^ text.length + number text := by
  rw [number, List.reverse_cons, List.map_append, Nat.ofDigits_append]
  simp [number, Nat.ofDigits_singleton, Nat.mul_comm, Nat.add_comm]

theorem number_append_singleton (text : List Char) (c : Char) :
    number (text ++ [c]) = 16 * number text + digitValue c := by
  rw [number, List.reverse_append]
  simp [number, Nat.ofDigits_cons, Nat.add_comm]

theorem number_lt (h : ∀ c ∈ text, IsDigit c) : number text < 16 ^ text.length := by
  have hdigits : ∀ d ∈ text.reverse.map digitValue, d < 16 := by
    intro d hd
    obtain ⟨c, hc, rfl⟩ := List.mem_map.1 hd
    exact digitValue_lt (h c (List.mem_reverse.1 hc))
  simpa [number] using Nat.ofDigits_lt_base_pow_length (by decide) hdigits

theorem readFrom_eq_some_iff (acc : Nat) (text : List Char) :
    readFrom acc text = some n ↔
      (∀ c ∈ text, IsDigit c) ∧ n = acc * 16 ^ text.length + number text := by
  induction text generalizing acc with
  | nil => simp [readFrom, number, eq_comm]
  | cons c text ih =>
    rw [readFrom, value?_eq]
    by_cases hc : IsDigit c
    · have hsum : (16 * acc + digitValue c) * 16 ^ text.length + number text =
          acc * 16 ^ (c :: text).length + number (c :: text) := by
        rw [number_cons, List.length_cons]
        ring
      rw [if_pos hc]
      simp only [ih, List.forall_mem_cons, hc, true_and, hsum]
    · simp [hc]

/-- **A number** is read from its digits, and from nothing else. -/
theorem read?_eq_some_iff :
    read? text = some n ↔ (∀ c ∈ text, IsDigit c) ∧ n = number text := by
  simp [read?, readFrom_eq_some_iff]

theorem length_fixed (count n : Nat) : (fixed count n).length = count := by
  induction count generalizing n with
  | zero => rfl
  | succ count ih => simp [fixed, ih]

theorem isDigit_of_mem_fixed {count : Nat} (h : c ∈ fixed count n) : IsDigit c := by
  induction count generalizing n with
  | zero => simp [fixed] at h
  | succ count ih =>
    rcases List.mem_append.1 h with h | h
    · exact ih h
    · exact List.mem_singleton.1 h ▸ isDigit_digit n

/-- The number written with a count of digits, when it fits. -/
theorem number_fixed (count n : Nat) : number (fixed count n) = n % 16 ^ count := by
  induction count generalizing n with
  | zero => simp [fixed, number, Nat.mod_one]
  | succ count ih =>
    rw [fixed, number_append_singleton, ih, digitValue_digit, Nat.pow_succ,
      Nat.mul_comm (16 ^ count), Nat.mod_mul, Nat.add_comm]

theorem digit_digitValue (h : IsDigit c) : digit (digitValue c) = c.toLower := by
  have halphabet : ∀ d ∈ alphabet, digit (alphabet.idxOf d) = d := by
    intro d hd
    fin_cases hd <;> rfl
  exact halphabet _ h

/-- Writing a number that was read gives its digits in lower case. -/
theorem fixed_number (h : ∀ c ∈ text, IsDigit c) :
    fixed text.length (number text) = text.map Char.toLower := by
  induction text using List.reverseRecOn with
  | nil => rfl
  | append_singleton text c ih =>
    rw [List.forall_mem_append, List.forall_mem_singleton] at h
    have hlt := digitValue_lt h.2
    have hdiv : (16 * number text + digitValue c) / 16 = number text := by omega
    have hdigit : digit (16 * number text + digitValue c) = digit (digitValue c) := by
      rw [digit, digit, Nat.mul_add_mod]
    rw [List.length_append, List.length_singleton, fixed, number_append_singleton, hdiv, ih h.1,
      hdigit, digit_digitValue h.2, List.map_append, List.map_singleton]

/-! ## Bytes -/

theorem isDigitByte_ascii : ∀ n < 128,
    (String.utf8EncodeChar (Char.ofNat n)).all isDigitByte = decide (IsDigit (Char.ofNat n)) := by
  decide +kernel

theorem isDigitByte_of_le {b : UInt8} (h : 128 ≤ b.toNat) : isDigitByte b = false := by
  have hle : ∀ d : UInt8, d.toNat < 128 → ¬ b ≤ d := fun d hd hbd => by
    have : b.toNat ≤ d.toNat := hbd
    omega
  simp only [isDigitByte, Bool.or_eq_false_iff, Bool.and_eq_false_iff, decide_eq_false_iff_not]
  exact ⟨⟨.inr (hle _ (by decide)), .inr (hle _ (by decide))⟩, .inr (hle _ (by decide))⟩

/-- A character beyond ASCII is coded by bytes that are no digits, the last one among them. -/
theorem exists_mem_utf8EncodeChar (h : ¬ c.toNat < 128) :
    ∃ b ∈ String.utf8EncodeChar c, 128 ≤ b.toNat := by
  have hlast : 128 ≤ (UInt8.ofNat (c.val.toNat % 64 + 128)).toNat := by
    rw [UInt8.toNat_ofNat']
    omega
  have hascii : ¬ c.val.toNat ≤ 127 := fun hle => h (Nat.lt_succ_of_le hle)
  refine ⟨_, ?_, hlast⟩
  rw [String.utf8EncodeChar]
  simp only [hascii, if_false]
  split_ifs <;> simp

theorem all_utf8EncodeChar_iff (c : Char) :
    (String.utf8EncodeChar c).all isDigitByte = true ↔ IsDigit c := by
  by_cases hc : c.toNat < 128
  · simpa using congrArg (· = true) (isDigitByte_ascii c.toNat hc)
  · obtain ⟨b, hb, hle⟩ := exists_mem_utf8EncodeChar hc
    refine iff_of_false (fun hall => ?_) fun h => hc (toNat_lt_of_isDigit h)
    rw [List.all_eq_true] at hall
    exact absurd (hall b hb) (by rw [isDigitByte_of_le hle]; decide)

/-- **The test of the bytes** lets pass the texts of hexadecimal digits and no other. -/
theorem all_isDigitByte_iff :
    (text.flatMap String.utf8EncodeChar).all isDigitByte = true ↔ ∀ c ∈ text, IsDigit c := by
  rw [List.all_flatMap, List.all_eq_true]
  exact forall₂_congr fun c _ => all_utf8EncodeChar_iff c

/-- Digits are coded by one byte each. -/
theorem length_utf8_of_digits (h : ∀ c ∈ text, IsDigit c) :
    (text.flatMap String.utf8EncodeChar).length = text.length := by
  have hone : ∀ c ∈ text, (String.utf8EncodeChar c).length = 1 := fun c hc => by
    have hle : c.val.toNat ≤ 127 := Nat.le_of_lt_succ (toNat_lt_of_isDigit (h c hc))
    rw [String.utf8EncodeChar, if_pos hle, List.length_singleton]
  rw [List.length_flatMap, List.map_congr_left hone, List.map_const', List.sum_replicate,
    smul_eq_mul, Nat.mul_one]

/-- Digits have no sign, so a number that fits is read from all of them. -/
theorem readWord?_of_digits (h : ∀ c ∈ text, IsDigit c) (hne : text ≠ [])
    (hlt : number text < UInt32.size) :
    readWord? text = some (UInt32.ofNat (number text)) := by
  have hsign : ¬ (text.head? == some '+') = true := fun hhead => by
    have hplus := h '+' (List.mem_of_mem_head? (beq_iff_eq.1 hhead))
    exact absurd hplus (by decide)
  have hread : read? text = some (number text) := read?_eq_some_iff.2 ⟨h, rfl⟩
  simp only [readWord?, if_neg hsign, List.isEmpty_iff, if_neg hne, hread, Option.bind_some,
    if_pos hlt]

end Text.Hex

namespace FunctionHash

open Text.Hex

variable {text : List Char} {h : FunctionHash}

/-! ## Identities -/

/-- Eight hexadecimal digits, in either case. -/
def IsText (text : List Char) : Prop := text.length = 8 ∧ ∀ c ∈ text, IsDigit c

/-- The text is one of an identity: its digits, in base sixteen. -/
def Denotes (text : List Char) (h : FunctionHash) : Prop :=
  IsText text ∧ number text = h.raw.toNat

theorem number_lt_of_isText (h : IsText text) : number text < UInt32.size := by
  simpa [h.1, UInt32.size] using number_lt h.2

/-- The test of a text accepts those of identities, though it counts bytes and not characters. -/
theorem tested_iff_isText :
    (text.flatMap String.utf8EncodeChar).length = 8 ∧
      (text.flatMap String.utf8EncodeChar).all isDigitByte = true ↔ IsText text := by
  rw [all_isDigitByte_iff, IsText]
  exact and_congr_left fun h => by rw [length_utf8_of_digits h]

/-- **Reading an identity.** -/
theorem ofDigits?_eq_some_iff : ofDigits? text = some h ↔ Denotes text h := by
  simp only [ofDigits?]
  by_cases htext : IsText text
  · have hlt := number_lt_of_isText htext
    have hne : text ≠ [] := by
      rintro rfl
      exact absurd htext.1 (by decide)
    rw [if_pos (tested_iff_isText.2 htext), readWord?_of_digits htext.2 hne hlt, Option.map_some,
      Option.some_inj, Denotes]
    constructor
    · rintro rfl
      exact ⟨htext, (UInt32.toNat_ofNat_of_lt hlt).symm⟩
    · rintro ⟨-, hnumber⟩
      rw [hnumber, UInt32.ofNat_toNat]
  · rw [if_neg (tested_iff_isText.not.2 htext)]
    simp [Denotes, htext]

theorem isSome_ofDigits?_iff : (ofDigits? text).isSome = true ↔ IsText text := by
  rw [Option.isSome_iff_exists]
  constructor
  · rintro ⟨h, hh⟩
    exact (ofDigits?_eq_some_iff.1 hh).1
  · intro htext
    have hlt := number_lt_of_isText htext
    exact ⟨⟨UInt32.ofNat (number text)⟩,
      ofDigits?_eq_some_iff.2 ⟨htext, (UInt32.toNat_ofNat_of_lt hlt).symm⟩⟩

/-- **The text written** for an identity is one of its texts. -/
theorem denotes_digits (h : FunctionHash) : Denotes h.digits h := by
  refine ⟨⟨length_fixed .., fun c hc => isDigit_of_mem_fixed hc⟩, ?_⟩
  rw [digits, number_fixed]
  exact Nat.mod_eq_of_lt h.raw.toNat_lt

/-- An identity is written as its texts in lower case. -/
theorem digits_eq_of_denotes (hdenotes : Denotes text h) : h.digits = text.map Char.toLower := by
  obtain ⟨⟨hlen, hdigits⟩, hnumber⟩ := hdenotes
  rw [digits, ← hnumber, ← hlen, fixed_number hdigits]

/-! ## Strings -/

theorem parse_eq_ok_iff {text : String} : parse text = .ok h ↔ Denotes text.toList h := by
  rw [← ofDigits?_eq_some_iff, parse, parse?]
  cases ofDigits? text.toList <;> simp

theorem exists_parse_eq_ok_iff {text : String} :
    (∃ h, parse text = .ok h) ↔ IsText text.toList := by
  simp only [parse_eq_ok_iff, ← ofDigits?_eq_some_iff, ← isSome_ofDigits?_iff,
    Option.isSome_iff_exists]

/-- **Reading undoes writing.** -/
theorem parse_render (h : FunctionHash) : parse h.render = .ok h := by
  rw [parse_eq_ok_iff, render, String.toList_ofList]
  exact denotes_digits h

theorem render_injective : Function.Injective render := fun h k heq => by
  have hparse := parse_render h
  rw [heq, parse_render] at hparse
  exact (Except.ok.inj hparse).symm

/-- **Writing undoes reading** up to case. -/
theorem render_eq_toLower {text : String} (hparse : parse text = .ok h) :
    h.render = text.toLower := by
  have hlower : text.toLower = text.map Char.toLower := rfl
  rw [render, digits_eq_of_denotes (parse_eq_ok_iff.1 hparse), hlower, ← String.toList_map,
    String.ofList_toList]

/-- **The text of an identity.**  What is written for an identity is read as it.  A text is read
exactly when it is eight hexadecimal digits, in either case; it is read as the number with these
digits in base sixteen, and written again it is the text in lower case.  So two texts that are read
are the same identity exactly when they differ in case only. -/
theorem text_exact :
    (∀ raw : UInt32, parse (render ⟨raw⟩) = .ok ⟨raw⟩) ∧
    (∀ text : String, (∃ h, parse text = .ok h) ↔ IsText text.toList) ∧
    (∀ (text : String) (h : FunctionHash), parse text = .ok h →
      number text.toList = h.raw.toNat ∧ h.render = text.toLower) ∧
    ∀ (text other : String) (h k : FunctionHash), parse text = .ok h → parse other = .ok k →
      (h = k ↔ text.toLower = other.toLower) := by
  refine ⟨fun raw => parse_render ⟨raw⟩, fun text => exists_parse_eq_ok_iff,
    fun text h hparse => ⟨(parse_eq_ok_iff.1 hparse).2, render_eq_toLower hparse⟩,
    fun text other h k hparse hother => ?_⟩
  rw [← render_eq_toLower hparse, ← render_eq_toLower hother]
  exact render_injective.eq_iff.symm

theorem text_exact_mixedCase :
    parse "DA39A3EE" = .ok ⟨0xda39a3ee⟩ ∧ parse "da39A3ee" = .ok ⟨0xda39a3ee⟩ ∧
      render ⟨0xda39a3ee⟩ = "DA39A3EE".toLower ∧ "DA39A3EE".toLower = "da39A3ee".toLower := by
  have hupper : parse "DA39A3EE" = .ok ⟨0xda39a3ee⟩ := by decide +kernel
  have hmixed : parse "da39A3ee" = .ok ⟨0xda39a3ee⟩ := by decide +kernel
  obtain ⟨-, -, hread, hsame⟩ := text_exact
  exact ⟨hupper, hmixed, (hread _ _ hupper).2, (hsame _ _ _ _ hupper hmixed).1 rfl⟩

end FunctionHash

end Unroller
