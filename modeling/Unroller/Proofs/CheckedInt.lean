import Mathlib.Tactic
import Unroller.CheckedInt

/-!
# The checked operations are exact

Each operation answers with the exact result when that has 32 bits, and with nothing else.

* `fit?_eq_some_iff`, `fit?_eq_none_iff`: the range test of integers.
* `narrow?_eq`: the range test of 64-bit integers is the one of their values.
* `add?_eq`, `sub?_eq`, `mul?_eq`, `div?_eq`: no exact result of two 32-bit operands is too large
  for 64 bits, so each operation is its exact counterpart followed by the range test.
-/

namespace Unroller

/-- Whether an integer has 32 bits. -/
def InInt32 (n : Int) : Prop := -2147483648 ≤ n ∧ n ≤ 2147483647

theorem inInt32_toInt (x : Int32) : InInt32 x.toInt := by
  have := x.le_toInt
  have := x.toInt_lt
  constructor <;> omega

theorem fit?_eq_some_iff {n : Int} {x : Int32} : fit? n = some x ↔ x.toInt = n := by
  constructor
  · intro h
    rw [fit?] at h
    split at h
    · rename_i hn
      obtain rfl := Option.some.inj h
      exact Int32.toInt_ofInt_of_le (by omega) (by omega)
    · cases h
  · rintro rfl
    obtain ⟨hlow, hhigh⟩ := inInt32_toInt x
    rw [fit?, if_pos ⟨hlow, hhigh⟩, Int32.ofInt_toInt]

theorem fit?_eq_none_iff {n : Int} : fit? n = none ↔ ¬ InInt32 n := by
  simp [fit?, InInt32]

/-! ## 64 bits are enough -/

theorem narrow?_eq (n : Int64) : narrow? n = fit? n.toInt := by
  have hvalue : n.toInt32.toInt64 = n ↔ n.toInt.bmod (2 ^ 32) = n.toInt := by
    rw [← Int64.toInt_inj, Int32.toInt_toInt64, Int64.toInt_toInt32]
  by_cases h : InInt32 n.toInt
  · have hmod : n.toInt.bmod (2 ^ 32) = n.toInt := by
      obtain ⟨hlow, hhigh⟩ := h
      exact Int.bmod_eq_of_le (by omega) (by omega)
    rw [narrow?, if_pos (hvalue.2 hmod), eq_comm, fit?_eq_some_iff, Int64.toInt_toInt32, hmod]
  · rw [narrow?, if_neg, eq_comm, fit?_eq_none_iff]
    · exact h
    · intro heq
      rw [← heq, Int32.toInt_toInt64] at h
      exact h (inInt32_toInt _)

/-- A 64-bit result that is exact when it has 64 bits is exact. -/
theorem fit?_bmod {n : Int} (hlow : -4611686018427387904 ≤ n) (hhigh : n ≤ 4611686018427387904) :
    fit? (n.bmod (2 ^ 64)) = fit? n := by
  rw [Int.bmod_eq_of_le (by omega) (by omega)]

theorem add?_eq (a b : Int32) : add? a b = fit? (a.toInt + b.toInt) := by
  obtain ⟨ha, ha'⟩ := inInt32_toInt a
  obtain ⟨hb, hb'⟩ := inInt32_toInt b
  rw [add?, narrow?_eq, Int64.toInt_add, Int32.toInt_toInt64, Int32.toInt_toInt64]
  exact fit?_bmod (by omega) (by omega)

theorem sub?_eq (a b : Int32) : sub? a b = fit? (a.toInt - b.toInt) := by
  obtain ⟨ha, ha'⟩ := inInt32_toInt a
  obtain ⟨hb, hb'⟩ := inInt32_toInt b
  rw [sub?, narrow?_eq, Int64.toInt_sub, Int32.toInt_toInt64, Int32.toInt_toInt64]
  exact fit?_bmod (by omega) (by omega)

theorem natAbs_toInt_le (x : Int32) : |x.toInt| ≤ 2147483648 := by
  obtain ⟨hlow, hhigh⟩ := inInt32_toInt x
  exact abs_le.2 ⟨by omega, by omega⟩

theorem mul?_eq (a b : Int32) : mul? a b = fit? (a.toInt * b.toInt) := by
  have habs : |a.toInt * b.toInt| ≤ 2147483648 * 2147483648 := by
    rw [abs_mul]
    exact mul_le_mul (natAbs_toInt_le a) (natAbs_toInt_le b) (abs_nonneg _) (by norm_num)
  obtain ⟨hlow, hhigh⟩ := abs_le.1 habs
  rw [mul?, narrow?_eq, Int64.toInt_mul, Int32.toInt_toInt64, Int32.toInt_toInt64]
  exact fit?_bmod (by omega) (by omega)

theorem div?_eq (a b : Int32) :
    div? a b = if b = 0 then none else fit? (a.toInt.tdiv b.toInt) := by
  have habs : |a.toInt.tdiv b.toInt| ≤ 2147483648 := by
    refine le_trans ?_ (natAbs_toInt_le a)
    rw [Int.abs_eq_natAbs, Int.abs_eq_natAbs, Int.natAbs_tdiv]
    exact_mod_cast Nat.div_le_self _ _
  obtain ⟨hlow, hhigh⟩ := abs_le.1 habs
  rw [div?, narrow?_eq, Int64.toInt_div, Int32.toInt_toInt64, Int32.toInt_toInt64,
    fit?_bmod (by omega) (by omega)]

end Unroller
