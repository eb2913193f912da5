import Mathlib.Data.Nat.Bitwise
import Mathlib.Tactic
import Unroller.BitSet
import Unroller.Proofs.Arrays

/-!
# Membership in packed sets

Membership is read off one bit of one word, so inserting or removing a number changes the answer for
that number only, and a set made from a list has the numbers of the list as its members.

* `contains_insert`, `contains_erase`, `contains_clear`: what each operation does to membership.
* `isEmpty_iff`: a set is reported empty when it has no members.
* `eq_iff`: sets are equal when they have equally many words and the same members.
-/

namespace Unroller.BitSet

variable (s t : BitSet) (i j : Nat)

/-! ## Membership -/

theorem toNat_bit : (bit i).toNat = 2 ^ (i % 64) := by
  have hlt : i % 64 < 64 := Nat.mod_lt _ (by decide)
  have hsmall : i % 64 < 2 ^ 64 := by omega
  have hpow : 2 ^ (i % 64) < 2 ^ 64 := Nat.pow_lt_pow_right (by decide) hlt
  rw [bit, UInt64.toNat_shiftLeft, UInt64.toNat_ofNat', Nat.mod_eq_of_lt hsmall,
    Nat.mod_eq_of_lt hlt]
  simpa [Nat.shiftLeft_eq] using hpow

theorem and_bit_eq_zero_iff (word : UInt64) :
    word &&& bit i = 0 ↔ word.toNat.testBit (i % 64) = false := by
  rw [← UInt64.toNat_inj, UInt64.toNat_and, toNat_bit, Nat.and_two_pow]
  cases word.toNat.testBit (i % 64) <;> simp

theorem testBit_not (word : UInt64) (k : Nat) :
    (~~~word).toNat.testBit k = (decide (k < 64) && !word.toNat.testBit k) := by
  rw [← UInt64.toNat_toBitVec, UInt64.toBitVec_not, BitVec.testBit_toNat, BitVec.getLsbD_not,
    ← BitVec.testBit_toNat, UInt64.toNat_toBitVec]

theorem contains_eq : s.contains i = ((s.words.getD (i / 64) 0).toNat.testBit (i % 64)) := by
  have hbit := and_bit_eq_zero_iff i (s.words.getD (i / 64) 0)
  rw [contains]
  by_cases h : i / 64 < s.words.size
  · simp only [Array.getD_eq_getD_getElem?, h, getElem?_pos, Option.getD_some] at hbit ⊢
    cases ht : (s.words[i / 64]).toNat.testBit (i % 64)
    · simpa using hbit.2 ht
    · rw [ht] at hbit
      simpa using hbit
  · simp [Array.getD_eq_getD_getElem?, h]

theorem getD_grow (words : Array UInt64) (count k : Nat) :
    (grow words count).getD k 0 = words.getD k 0 := by
  simp only [grow, Array.getD_eq_getD_getElem?, Array.getElem?_append, Array.getElem?_replicate]
  by_cases h : k < words.size
  · simp [h]
  · by_cases h' : k - words.size < count - words.size <;> simp [h, h']

/-- The flag of an insertion tells whether the number was absent. -/
theorem fst_insert : (s.insert i).1 = !s.contains i := by
  rw [contains_eq, insert, Bool.eq_iff_iff, Bool.not_eq_true', beq_iff_eq, and_bit_eq_zero_iff,
    getD_grow]

/-- Inserting a number makes it a member and changes nothing else. -/
theorem contains_insert : (s.insert i).2.contains j = (s.contains j || decide (j = i)) := by
  have hgrow : i / 64 < (grow s.words (i / 64 + 1)).size := by
    simp [grow]
    omega
  simp only [contains_eq, insert, getD_setIfInBounds]
  by_cases hword : i / 64 = j / 64
  · rw [if_pos ⟨hword, hword ▸ hgrow⟩, UInt64.toNat_or, Nat.testBit_or, getD_grow, toNat_bit,
      Nat.testBit_two_pow, hword]
    congr 1
    rw [decide_eq_decide]
    omega
  · rw [if_neg fun h => hword h.1, getD_grow]
    have hne : j ≠ i := by
      rintro rfl
      exact hword rfl
    simp [hne]

/-- Removing a number makes it no member and changes nothing else. -/
theorem contains_erase : (s.erase i).contains j = (s.contains j && decide (j ≠ i)) := by
  simp only [contains_eq, erase, getD_modify]
  by_cases hword : i / 64 = j / 64 ∧ j / 64 < s.words.size
  · rw [if_pos hword, UInt64.toNat_and, Nat.testBit_and, testBit_not, toNat_bit,
      Nat.testBit_two_pow]
    congr 1
    rw [Bool.eq_iff_iff]
    simp only [Bool.and_eq_true, decide_eq_true_eq, Bool.not_eq_true', decide_eq_false_iff_not]
    omega
  · rw [if_neg hword]
    by_cases hji : j = i
    · -- a number past the last word is no member
      have hsize : ¬ j / 64 < s.words.size := fun h => hword ⟨by rw [hji], h⟩
      simp [hji ▸ hsize, Array.getD_eq_getD_getElem?, hji]
    · simp [hji]

theorem contains_clear : s.clear.contains j = false := by
  rw [contains_eq, clear, Array.getD_eq_getD_getElem?, Array.getElem?_map]
  cases s.words[j / 64]? <;> simp

theorem contains_withCapacity (capacity : Nat) : (withCapacity capacity).contains j = false := by
  rw [contains_eq, withCapacity, Array.getD_eq_getD_getElem?, Array.getElem?_replicate]
  split <;> simp

theorem contains_foldl_insert (items : List Nat) :
    (items.foldl (fun s i => (s.insert i).2) s).contains j =
    (s.contains j || items.contains j) := by
  induction items generalizing s with
  | nil => simp
  | cons i items ih =>
    rw [List.foldl_cons, ih, contains_insert, List.contains_cons, Bool.or_assoc]
    rfl

/-- The set of a list has the numbers of the list as its members. -/
theorem contains_ofList (capacity : Nat) (items : List Nat) :
    (ofList capacity items).contains j = items.contains j := by
  rw [ofList, contains_foldl_insert, contains_withCapacity, Bool.false_or]

/-! ## Words -/

/-- A word has no bit beyond the last. -/
theorem lt_of_testBit {word : UInt64} {k : Nat} (h : word.toNat.testBit k = true) : k < 64 :=
  BitVec.lt_of_getLsbD h

/-- Sets with the same members have the same words, up to zero words at the end. -/
theorem getD_words_eq (h : ∀ i, s.contains i = t.contains i) (n : Nat) :
    s.words.getD n 0 = t.words.getD n 0 := by
  rw [← UInt64.toNat_inj]
  refine Nat.eq_of_testBit_eq fun k => ?_
  by_cases hk : k < 64
  · have hbit := h (64 * n + k)
    rw [contains_eq, contains_eq] at hbit
    rwa [show (64 * n + k) / 64 = n by omega, show (64 * n + k) % 64 = k by omega] at hbit
  · rw [Bool.eq_iff_iff]
    exact ⟨fun h => absurd (lt_of_testBit h) hk, fun h => absurd (lt_of_testBit h) hk⟩

/-- A set is reported empty exactly when it has no members. -/
theorem isEmpty_iff : s.isEmpty = true ↔ ∀ i, s.contains i = false := by
  rw [isEmpty, Array.all_eq_true]
  constructor
  · intro h i
    rw [contains_eq, Array.getD_eq_getD_getElem?]
    by_cases hi : i / 64 < s.words.size
    · simp [hi, beq_iff_eq.1 (h _ hi)]
    · simp [hi]
  · intro h n hn
    have hword := getD_words_eq s (withCapacity 0) (fun i => by rw [h, contains_withCapacity]) n
    simpa [Array.getD_eq_getD_getElem?, hn, withCapacity] using hword

/-- **Equality** of sets is the same number of words and the same members. -/
theorem eq_iff :
    s = t ↔ s.words.size = t.words.size ∧ ∀ i, s.contains i = t.contains i := by
  constructor
  · rintro rfl
    exact ⟨rfl, fun _ => rfl⟩
  · rintro ⟨hsize, hmem⟩
    have hwords : s.words = t.words := by
      refine Array.ext hsize fun n hs ht => ?_
      have hword := getD_words_eq s t hmem n
      simpa [Array.getD_eq_getD_getElem?, hs, ht] using hword
    cases s
    cases t
    exact congrArg BitSet.mk hwords

-- two empty sets need not be equal
example : withCapacity 1 ≠ withCapacity 65 := by decide

end Unroller.BitSet
