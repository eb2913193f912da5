import Mathlib.Tactic
import Unroller.Loop.Induction

/-!
# How the counting of iterations ends

`Trips.verdictFrom` counts with 32 bits until it has a verdict.  Here its answer is described by
the values themselves, with iterations numbered by natural numbers.

* `after`: the value after `n` iterations that have all gone on.
* `Ending`: the four ways in which counting can come out; `verdictFrom_eq_iff` says that it does
  come out in the way it should.
* `Heads`: the states in which an iteration begins.
-/

namespace Unroller.Progress

open Trips (verdictFrom)

variable {update : CheckedInt → CheckedInt} {leaves : Int32 → Bool} {limit count : UInt32}
  {x y z : Int32} {n m : Nat}

/-- The value after `n` iterations, if all of them have gone on. -/
def after (update : CheckedInt → CheckedInt) (leaves : Int32 → Bool) (x : Int32) :
    Nat → Option Int32
  | 0 => some x
  | n + 1 => (after update leaves x n).bind fun y =>
    (update (.ofInt32 y)).value?.filter fun z => !leaves z

@[simp] theorem after_zero : after update leaves x 0 = some x := rfl

theorem after_succ_of (h : after update leaves x n = some y) :
    after update leaves x (n + 1) =
      (update (.ofInt32 y)).value?.filter fun z => !leaves z := by
  rw [after, h, Option.bind_some]

theorem after_succ_eq_some_iff :
    after update leaves x (n + 1) = some z ↔
      ∃ y, after update leaves x n = some y ∧ (update (.ofInt32 y)).value? = some z ∧
        leaves z = false := by
  simp [after, Option.bind_eq_some_iff, Option.filter_eq_some_iff]

/-- The iterations after the first `m` are those of the value reached then. -/
theorem after_add :
    after update leaves x (m + n) = (after update leaves x m).bind (after update leaves · n) := by
  induction n with
  | zero => simp
  | succ n ih =>
    rw [← Nat.add_assoc, after, ih]
    cases after update leaves x m <;> simp [after]

theorem isSome_after_of_le (h : (after update leaves x m).isSome) (hn : n ≤ m) :
    (after update leaves x n).isSome := by
  obtain ⟨k, rfl⟩ := Nat.exists_eq_add_of_le hn
  rw [after_add] at h
  exact Option.isSome_of_isSome_bind h

/-! ## One iteration -/

theorem ofNat_succ (n : Nat) : UInt32.ofNat n + 1 = UInt32.ofNat (n + 1) := by
  rw [UInt32.ofNat_add]
  rfl

theorem toNat_ofNat_of_le (h : n ≤ limit.toNat) : (UInt32.ofNat n).toNat = n :=
  UInt32.toNat_ofNat_of_lt' (Nat.lt_of_le_of_lt h limit.toNat_lt)

theorem ofNat_ne_last (h : n < 4294967295) : UInt32.ofNat n ≠ Trips.last := by
  intro heq
  have htoNat := congrArg UInt32.toNat heq
  rw [UInt32.toNat_ofNat_of_lt' (by rw [UInt32.size]; omega)] at htoNat
  have hlast : Trips.last.toNat = 4294967295 := rfl
  omega

/-- An iteration within the limit goes by the value alone. -/
theorem next_of_le (h : n + 1 ≤ limit.toNat) :
    next update leaves limit (.ofNat n) y =
      match (update (.ofInt32 y)).value? with
      | none => .verdict (.error (.rejected .iterationOverflow))
      | some z => if leaves z then .verdict (.ok (.ofNat (n + 1)))
        else .goesOn (.ofNat (n + 1)) z := by
  have hlimit := limit.toNat_lt
  have hlt : ¬ limit < UInt32.ofNat (n + 1) := by
    rw [UInt32.lt_iff_toNat_lt, toNat_ofNat_of_le h]
    omega
  rw [next, if_neg (ofNat_ne_last (by omega))]
  cases (update (.ofInt32 y)).value? <;> simp only [ofNat_succ, hlt, if_false]

/-- Below the largest limit, the iteration after the last one within it is given up. -/
theorem next_of_limit (h : limit.toNat < 4294967295) :
    next update leaves limit (.ofNat limit.toNat) y =
      .verdict (.error (.rejected (.tooManyIterations limit.toNat))) := by
  have hlt : limit < UInt32.ofNat (limit.toNat + 1) := by
    rw [UInt32.lt_iff_toNat_lt, UInt32.toNat_ofNat']
    omega
  rw [next, if_neg (ofNat_ne_last h)]
  simp only [ofNat_succ, hlt, if_true]

/-- After the largest number of iterations there is no counting one more. -/
theorem next_of_last :
    next update leaves limit (.ofNat 4294967295) y =
      .verdict (.error (.stopped .counterOverflow)) := by
  have hlast : UInt32.ofNat 4294967295 = Trips.last := rfl
  rw [next, if_pos hlast]

/-- The states in which an iteration begins: the count of those behind, and the value. -/
inductive Heads (update : CheckedInt → CheckedInt) (leaves : Int32 → Bool) (limit : UInt32)
    (x : Int32) : UInt32 → Int32 → Prop where
  | start : Heads update leaves limit x 0 x
  | step {count count' : UInt32} {y z : Int32} (before : Heads update leaves limit x count y)
    (next : next update leaves limit count y = .goesOn count' z) :
    Heads update leaves limit x count' z

/-- The beginnings of the iterations within the limit, and of the one after them. -/
theorem heads_iff :
    Heads update leaves limit x count y ↔
      ∃ n, n ≤ limit.toNat ∧ after update leaves x n = some y ∧ count = .ofNat n := by
  constructor
  · intro h
    induction h with
    | start => exact ⟨0, Nat.zero_le _, rfl, rfl⟩
    | @step count count' y z _ hnext ih =>
      obtain ⟨n, hn, hy, rfl⟩ := ih
      rcases Nat.lt_or_eq_of_le hn with hlt | rfl
      · rw [next_of_le hlt] at hnext
        split at hnext
        · cases hnext
        rename_i w hw
        split at hnext
        · cases hnext
        rename_i hstays
        obtain ⟨rfl, rfl⟩ := Progress.goesOn.inj hnext
        exact ⟨n + 1, hlt, after_succ_eq_some_iff.2 ⟨y, hy, hw, by simpa using hstays⟩, rfl⟩
      · rcases Nat.lt_or_ge limit.toNat 4294967295 with hbelow | hlargest
        · rw [next_of_limit hbelow] at hnext
          cases hnext
        · have := limit.toNat_lt
          rw [show limit.toNat = 4294967295 by omega, next_of_last] at hnext
          cases hnext
  · rintro ⟨n, hn, hy, rfl⟩
    induction n generalizing y with
    | zero =>
      obtain rfl := Option.some.inj hy
      exact .start
    | succ n ih =>
      obtain ⟨w, hw, hz, hstays⟩ := after_succ_eq_some_iff.1 hy
      refine .step (ih (by omega) hw) ?_
      rw [next_of_le hn, hz]
      simp [hstays]

/-! ## The verdict -/

/-- How counting comes out, from the value `x` on. -/
inductive Ending (update : CheckedInt → CheckedInt) (leaves : Int32 → Bool) (limit : UInt32)
    (x : Int32) : Except Refusal UInt32 → Prop where
  | left {n : Nat} {y z : Int32} (within : n + 1 ≤ limit.toNat)
    (before : after update leaves x n = some y) (value : (update (.ofInt32 y)).value? = some z)
    (exits : leaves z = true) : Ending update leaves limit x (.ok (.ofNat (n + 1)))
  | overflow {n : Nat} {y : Int32} (within : n + 1 ≤ limit.toNat)
    (before : after update leaves x n = some y) (value : (update (.ofInt32 y)).value? = none) :
    Ending update leaves limit x (.error (.rejected .iterationOverflow))
  | tooMany (below : limit.toNat < 4294967295)
    (goesOn : (after update leaves x limit.toNat).isSome) :
    Ending update leaves limit x (.error (.rejected (.tooManyIterations limit.toNat)))
  | counter (largest : limit.toNat = 4294967295)
    (goesOn : (after update leaves x limit.toNat).isSome) :
    Ending update leaves limit x (.error (.stopped .counterOverflow))

/-- Counting comes out in some way. -/
theorem exists_ending (update : CheckedInt → CheckedInt) (leaves : Int32 → Bool) (limit : UInt32)
    (x : Int32) : ∃ answer, Ending update leaves limit x answer := by
  by_cases hall : (after update leaves x limit.toNat).isSome
  · rcases Nat.lt_or_ge limit.toNat 4294967295 with hbelow | hlargest
    · exact ⟨_, .tooMany hbelow hall⟩
    · have := limit.toNat_lt
      exact ⟨_, .counter (by omega) hall⟩
  · -- the first iteration that does not go on
    have hend : ∃ n, ¬ (after update leaves x n).isSome := ⟨_, hall⟩
    classical
    obtain ⟨n, hn⟩ : ∃ n, Nat.find hend = n + 1 := by
      refine Nat.exists_eq_succ_of_ne_zero fun hzero => ?_
      have := Nat.find_spec hend
      rw [hzero] at this
      simp at this
    have hlast := Nat.find_spec hend
    have hbefore : (after update leaves x n).isSome :=
      not_not.1 (Nat.find_min hend (m := n) (by omega))
    have hwithin : n + 1 ≤ limit.toNat := hn ▸ Nat.find_min' hend hall
    rw [hn] at hlast
    obtain ⟨y, hy⟩ := Option.isSome_iff_exists.1 hbefore
    cases hz : (update (.ofInt32 y)).value? with
    | none => exact ⟨_, .overflow hwithin hy hz⟩
    | some z =>
      refine ⟨_, .left hwithin hy hz ?_⟩
      rw [after_succ_of hy, hz] at hlast
      by_contra hstays
      simp [Option.filter, hstays] at hlast

theorem verdictFrom_of_next {answer : Except Refusal UInt32}
    (h : next update leaves limit count x = .verdict answer) :
    verdictFrom update leaves limit count x = answer := by
  rw [verdictFrom]
  split
  · next heq => exact Progress.verdict.inj (heq.symm.trans h)
  · next heq => cases heq.symm.trans h

theorem verdictFrom_of_goesOn {count' : UInt32}
    (h : next update leaves limit count x = .goesOn count' y) :
    verdictFrom update leaves limit count x = verdictFrom update leaves limit count' y := by
  conv_lhs => rw [verdictFrom]
  split
  · next heq => cases heq.symm.trans h
  · next heq =>
    obtain ⟨rfl, rfl⟩ := Progress.goesOn.inj (heq.symm.trans h)
    rfl

theorem verdictFrom_of_after (hn : n ≤ limit.toNat) (h : after update leaves x n = some y) :
    verdictFrom update leaves limit 0 x = verdictFrom update leaves limit (.ofNat n) y := by
  induction n generalizing y with
  | zero =>
    obtain rfl := Option.some.inj h
    rfl
  | succ n ih =>
    obtain ⟨w, hw, hy, hstays⟩ := after_succ_eq_some_iff.1 h
    rw [ih (by omega) hw]
    refine verdictFrom_of_goesOn ?_
    rw [next_of_le hn, hy]
    simp [hstays]

theorem Ending.verdictFrom_eq {answer : Except Refusal UInt32}
    (h : Ending update leaves limit x answer) : verdictFrom update leaves limit 0 x = answer := by
  cases h with
  | left hwithin hy hz hleaves =>
    rw [verdictFrom_of_after (by omega) hy]
    refine verdictFrom_of_next ?_
    rw [next_of_le hwithin, hz]
    simp [hleaves]
  | overflow hwithin hy hz =>
    rw [verdictFrom_of_after (by omega) hy]
    refine verdictFrom_of_next ?_
    rw [next_of_le hwithin, hz]
  | tooMany hlimit hgoes =>
    obtain ⟨y, hy⟩ := Option.isSome_iff_exists.1 hgoes
    rw [verdictFrom_of_after le_rfl hy]
    exact verdictFrom_of_next (next_of_limit hlimit)
  | counter hlimit hgoes =>
    obtain ⟨y, hy⟩ := Option.isSome_iff_exists.1 hgoes
    rw [verdictFrom_of_after le_rfl hy, hlimit]
    exact verdictFrom_of_next next_of_last

/-- **Counting comes out as it should.** -/
theorem verdictFrom_eq_iff {answer : Except Refusal UInt32} :
    verdictFrom update leaves limit 0 x = answer ↔ Ending update leaves limit x answer := by
  refine ⟨?_, Ending.verdictFrom_eq⟩
  rintro rfl
  obtain ⟨answer, h⟩ := exists_ending update leaves limit x
  rw [h.verdictFrom_eq]
  exact h

end Unroller.Progress
