import Mathlib.Data.List.Sort
import Mathlib.Data.Nat.BitIndices
import Mathlib.Tactic
import Unroller.Proofs.BitSet

/-!
# Listing and counting the members of packed sets

A word is listed by taking its lowest bit off until it is zero.

* `testBit_dropLowest`: taking the lowest bit off changes no other bit.
* `peel_eq`: so a word is listed as the positions of its bits, in ascending order.
* `sortedLT_members`, `mem_members`: the members are listed in strictly ascending order, each one.
* `count_eq_length`: they are counted by words as often as they are listed.
-/

namespace Unroller.BitSet

variable {s : BitSet} {word : UInt64} {i k : Nat}

/-! ## The lowest bit of a word -/

theorem testBit_trailingZeros (h : word ≠ 0) : word.toNat.testBit (trailingZeros word) = true :=
  BitVec.getLsbD_true_ctz_of_ne_zero fun h0 => h (UInt64.toBitVec_inj.1 h0)

theorem testBit_of_lt_trailingZeros (h : k < trailingZeros word) :
    word.toNat.testBit k = false :=
  BitVec.getLsbD_false_of_lt_ctz h

/-- What a word is up to its lowest bit. -/
theorem toNat_mod_trailingZeros (h : word ≠ 0) :
    word.toNat % 2 ^ (trailingZeros word + 1) = 2 ^ trailingZeros word := by
  refine Nat.eq_of_testBit_eq fun k => ?_
  rw [Nat.testBit_mod_two_pow, Nat.testBit_two_pow]
  rcases Nat.lt_trichotomy k (trailingZeros word) with hk | rfl | hk
  · rw [testBit_of_lt_trailingZeros hk]
    simp [hk.ne']
  · simp [testBit_trailingZeros h]
  · simp [hk.ne, Nat.not_lt.2 hk]

/-- Taking one from a word clears its lowest bit and sets those below. -/
theorem testBit_sub_one (h : word ≠ 0) (k : Nat) :
    (word - 1).toNat.testBit k =
      if k ≤ trailingZeros word then decide (k < trailingZeros word) else word.toNat.testBit k := by
  have hmod := toNat_mod_trailingZeros h
  have hpos := Nat.two_pow_pos (trailingZeros word)
  have hlt : 2 ^ trailingZeros word - 1 < 2 ^ (trailingZeros word + 1) := by
    rw [Nat.pow_succ]
    omega
  have hone : 0 < word.toNat := Nat.pos_of_ne_zero fun h0 => h (UInt64.toNat_inj.1 h0)
  have hsub : (word - 1).toNat = 2 ^ (trailingZeros word + 1) *
      (word.toNat / 2 ^ (trailingZeros word + 1)) + (2 ^ trailingZeros word - 1) := by
    have hdiv := Nat.div_add_mod word.toNat (2 ^ (trailingZeros word + 1))
    rw [UInt64.toNat_sub_of_le _ _ hone, UInt64.toNat_one]
    omega
  rw [hsub, Nat.testBit_two_pow_mul_add _ hlt]
  by_cases hk : k ≤ trailingZeros word
  · rw [if_pos (Nat.lt_succ_of_le hk), if_pos hk, Nat.testBit_two_pow_sub_one]
  · rw [if_neg (by omega), if_neg hk, Nat.testBit_div_two_pow,
      Nat.sub_add_cancel (Nat.lt_of_not_le hk)]

/-- **Taking the lowest bit off** changes no other bit. -/
theorem testBit_dropLowest (h : word ≠ 0) (k : Nat) :
    (dropLowest word).toNat.testBit k =
      (word.toNat.testBit k && decide (k ≠ trailingZeros word)) := by
  rw [dropLowest, UInt64.toNat_and, Nat.testBit_and, testBit_sub_one h]
  rcases Nat.lt_trichotomy k (trailingZeros word) with hk | rfl | hk
  · simp [testBit_of_lt_trailingZeros hk]
  · simp
  · simp [hk.ne', Nat.not_le.2 hk]

theorem bitIndices_eq_cons (h : word ≠ 0) :
    word.toNat.bitIndices = trailingZeros word :: (dropLowest word).toNat.bitIndices := by
  have hmem : ∀ k, k ∈ (dropLowest word).toNat.bitIndices ↔
      word.toNat.testBit k = true ∧ k ≠ trailingZeros word := fun k => by
    rw [Nat.mem_bitIndices, testBit_dropLowest h, Bool.and_eq_true, decide_eq_true_eq]
  refine Nat.bitIndices_sorted.eq_of_mem_iff ?_ fun k => ?_
  · refine (List.pairwise_cons.2 ⟨fun k hk => ?_, Nat.bitIndices_sorted.pairwise⟩).sortedLT
    obtain ⟨hbit, hne⟩ := (hmem k).1 hk
    by_contra hle
    rw [testBit_of_lt_trailingZeros (by omega)] at hbit
    cases hbit
  · rw [List.mem_cons, hmem, Nat.mem_bitIndices]
    by_cases hk : k = trailingZeros word
    · simp [hk, testBit_trailingZeros h]
    · simp [hk]

/-- **A word** is listed as the positions of its bits. -/
theorem peel_eq (base : Nat) (word : UInt64) :
    peel base word = word.toNat.bitIndices.map (base + ·) := by
  fun_induction peel base word with
  | case1 => simp
  | case2 word h ih => rw [ih, bitIndices_eq_cons h, List.map_cons]

theorem popCount_eq (word : UInt64) : popCount word = word.toNat.bitIndices.length := by
  rw [popCount, List.countP_eq_length_filter]
  congr 1
  refine (List.pairwise_lt_range.filter _).sortedLT.eq_of_mem_iff Nat.bitIndices_sorted fun k => ?_
  rw [List.mem_filter, List.mem_range, Nat.mem_bitIndices, bne_iff_ne, Ne, and_bit_eq_zero_iff]
  constructor
  · rintro ⟨hk, hbit⟩
    simpa [Nat.mod_eq_of_lt hk] using hbit
  · intro hbit
    have hk := lt_of_testBit hbit
    exact ⟨hk, by simp [Nat.mod_eq_of_lt hk, hbit]⟩

/-! ## All words -/

theorem mem_peel {base : Nat} :
    i ∈ peel base word ↔ ∃ k < 64, word.toNat.testBit k = true ∧ i = base + k := by
  simp only [peel_eq, List.mem_map, Nat.mem_bitIndices]
  constructor
  · rintro ⟨k, hbit, rfl⟩
    exact ⟨k, lt_of_testBit hbit, hbit, rfl⟩
  · rintro ⟨k, -, hbit, rfl⟩
    exact ⟨k, hbit, rfl⟩

/-- **The members** are listed in strictly ascending order. -/
theorem sortedLT_members (s : BitSet) : s.members.SortedLT := by
  have hindices : s.words.toList.zipIdx.Pairwise fun a b => a.2 < b.2 := by
    rw [← List.pairwise_map, List.zipIdx_map_snd]
    exact List.pairwise_lt_range'
  refine List.Pairwise.sortedLT (List.pairwise_flatMap.2 ⟨fun e _ => ?_, ?_⟩)
  · rw [peel_eq, List.pairwise_map]
    exact Nat.bitIndices_sorted.pairwise.imp fun h => Nat.add_lt_add_left h _
  · -- the numbers of one word are below those of the next
    refine hindices.imp fun {a b} hab x hx y hy => ?_
    obtain ⟨k, hk, -, rfl⟩ := mem_peel.1 hx
    obtain ⟨l, -, -, rfl⟩ := mem_peel.1 hy
    omega

/-- **The listed numbers** are the members. -/
theorem mem_members : i ∈ s.members ↔ s.contains i = true := by
  simp only [members, List.mem_flatMap, mem_peel, List.mem_zipIdx_iff_getElem?,
    Array.getElem?_toList, contains_eq, Array.getD_eq_getD_getElem?]
  constructor
  · rintro ⟨⟨w, n⟩, hw, k, hk, hbit, rfl⟩
    have hdiv : (64 * n + k) / 64 = n := by omega
    have hmod : (64 * n + k) % 64 = k := by omega
    simpa [hdiv, hmod, hw] using hbit
  · intro hbit
    cases hw : s.words[i / 64]? with
    | none => simp [hw] at hbit
    | some w =>
      rw [hw, Option.getD_some] at hbit
      exact ⟨(w, i / 64), hw, i % 64, Nat.mod_lt _ (by decide), hbit, (Nat.div_add_mod i 64).symm⟩

/-- The members are counted as often as they are listed. -/
theorem count_eq_length (s : BitSet) : s.count = s.members.length := by
  have hlength : ∀ e : UInt64 × Nat, (peel (64 * e.2) e.1).length = popCount e.1 := fun e => by
    rw [peel_eq, List.length_map, popCount_eq]
  calc s.count = (s.words.toList.map popCount).sum := by
        rw [count, ← Array.foldl_toList, List.sum_eq_foldl_nat, List.foldl_map]
    _ = ((s.words.toList.zipIdx.map Prod.fst).map popCount).sum := by rw [List.zipIdx_map_fst]
    _ = s.members.length := by
        simp only [members, List.length_flatMap, List.map_map, Function.comp_def, hlength]

end Unroller.BitSet
