import Mathlib.Tactic
import Unroller.Proofs.CheckedInt
import Unroller.Proofs.Loop.Progress

/-!
# Trip counts are exact

The values of an induction variable, computed with integers of any size, decide what
`InductionVariable.tripCount` answers.

* `exact`: the value after each update; `Fits`, `Continues` and `GoesOnFor` say which of them have
  32 bits, and after which the loop goes on.
* `isSome_after_iff`: the simulation goes on as long as the exact values do.
* `tripCount_exact`: each answer comes exactly when the values are as it says.
* `tripCount_ends`: below the largest limit there always is a verdict, and the counter never
  overflows.
* `climbing`: under the largest limit the counter may overflow first.
-/

namespace Unroller.InductionVariable

variable {v : InductionVariable} {inverse : Bool} {limit : UInt32} {initial bound y z : Int32}
  {n : Nat}

/-! ## Exact values -/

/-- The exact result of an update, where there is one. -/
def exactUpdate (v : InductionVariable) (x : Int) : Option Int :=
  match v.updateKind with
  | .arithAdd => some (x + v.step.toInt)
  | .arithSub => some (x - v.step.toInt)
  | .arithMul => some (x * v.step.toInt)
  | _ => if v.step = 0 then none else some (x.tdiv v.step.toInt)

/-- The comparison of an exact value with the bound. -/
def exactTest (v : InductionVariable) (x bound : Int) : Bool :=
  match v.compare with
  | .compareLess => decide (x < bound)
  | .compareLessEq => decide (x ≤ bound)
  | .compareGreater => decide (bound < x)
  | .compareGreaterEq => decide (bound ≤ x)
  | _ => decide (x = bound)

/-- The exact value after so many updates. -/
def exact (v : InductionVariable) (initial : Int32) : Nat → Option Int
  | 0 => some initial.toInt
  | i + 1 => (v.exact initial i).bind v.exactUpdate

/-- The value after `i` updates is defined and has 32 bits. -/
def Fits (v : InductionVariable) (initial : Int32) (i : Nat) : Prop :=
  ∃ x, v.exact initial i = some x ∧ InInt32 x

/-- The value after `i` updates is defined and keeps control in the loop. -/
def Continues (v : InductionVariable) (inverse : Bool) (initial bound : Int32) (i : Nat) : Prop :=
  ∃ x, v.exact initial i = some x ∧ v.exactTest x bound.toInt ≠ inverse

/-- The first `n` updates give values of 32 bits, and all of them keep control in the loop. -/
def GoesOnFor (v : InductionVariable) (inverse : Bool) (initial bound : Int32) (n : Nat) : Prop :=
  ∀ i, 1 ≤ i → i ≤ n → v.Fits initial i ∧ v.Continues inverse initial bound i

theorem apply_eq (v : InductionVariable) (x : Int32) :
    (v.apply (.ofInt32 x)).value? = (v.exactUpdate x.toInt).bind fit? := by
  rw [apply, exactUpdate]
  split
  case h_1 hkind =>
    simp [hkind, CheckedInt.add, CheckedInt.combine, CheckedInt.ofInt32, add?_eq]
  case h_2 hkind =>
    simp [hkind, CheckedInt.sub, CheckedInt.combine, CheckedInt.ofInt32, sub?_eq]
  case h_3 hkind =>
    simp [hkind, CheckedInt.mul, CheckedInt.combine, CheckedInt.ofInt32, mul?_eq]
  case h_4 =>
    simp only [CheckedInt.div, CheckedInt.combine, CheckedInt.ofInt32, Option.bind_some, div?_eq]
    split <;> rfl

theorem test_eq (v : InductionVariable) (x bound : Int32) :
    v.test x bound = v.exactTest x.toInt bound.toInt := by
  have hbeq : (x == bound) = decide (x.toInt = bound.toInt) := by
    rw [Bool.eq_iff_iff, beq_iff_eq, decide_eq_true_eq, Int32.toInt_inj]
  cases hcompare : v.compare <;> simp [test, exactTest, hcompare, hbeq]

/-! ## The simulation and the exact values -/

/-- Whether control leaves the loop with this value. -/
def leavesAt (v : InductionVariable) (inverse : Bool) (bound value : Int32) : Bool :=
  v.test value bound == inverse

theorem verdict_eq :
    v.verdict inverse bound limit initial =
      Trips.verdictFrom v.apply (v.leavesAt inverse bound) limit 0 initial := by
  have hupdate : v.apply = fun value => v.apply value := rfl
  rw [hupdate]
  simp only [verdict, apply]
  split <;> rfl

theorem exact_of_after
    (h : Progress.after v.apply (v.leavesAt inverse bound) initial n = some y) :
    v.exact initial n = some y.toInt := by
  induction n generalizing y with
  | zero =>
    obtain rfl := Option.some.inj h
    rfl
  | succ n ih =>
    obtain ⟨x, hx, hy, _⟩ := Progress.after_succ_eq_some_iff.1 h
    rw [apply_eq, Option.bind_eq_some_iff] at hy
    obtain ⟨w, hw, hfit⟩ := hy
    rw [exact, ih hx, Option.bind_some, hw, fit?_eq_some_iff.1 hfit]

/-- An update of the simulation overflows exactly when the exact value does not fit. -/
theorem fits_succ_iff
    (h : Progress.after v.apply (v.leavesAt inverse bound) initial n = some y) :
    v.Fits initial (n + 1) ↔ ∃ z, (v.apply (.ofInt32 y)).value? = some z := by
  rw [apply_eq, Fits, exact, exact_of_after h, Option.bind_some]
  constructor
  · rintro ⟨x, hx, hin⟩
    cases hz : fit? x with
    | none => exact absurd hin (fit?_eq_none_iff.1 hz)
    | some z => exact ⟨z, by rw [hx, Option.bind_some, hz]⟩
  · rintro ⟨z, hz⟩
    obtain ⟨x, hx, hfit⟩ := Option.bind_eq_some_iff.1 hz
    exact ⟨x, hx, fit?_eq_some_iff.1 hfit ▸ inInt32_toInt z⟩

theorem continues_succ_iff
    (h : Progress.after v.apply (v.leavesAt inverse bound) initial n = some y)
    (hz : (v.apply (.ofInt32 y)).value? = some z) :
    v.Continues inverse initial bound (n + 1) ↔ v.leavesAt inverse bound z = false := by
  rw [apply_eq] at hz
  obtain ⟨x, hx, hfit⟩ := Option.bind_eq_some_iff.1 hz
  obtain rfl := fit?_eq_some_iff.1 hfit
  simp [Continues, exact, exact_of_after h, hx, leavesAt, test_eq]

/-- **The simulation goes on as long as the exact values do.** -/
theorem isSome_after_iff :
    (Progress.after v.apply (v.leavesAt inverse bound) initial n).isSome ↔
      v.GoesOnFor inverse initial bound n := by
  induction n with
  | zero =>
    refine ⟨fun _ i hi hle => ?_, fun _ => rfl⟩
    omega
  | succ n ih =>
    constructor
    · intro h i hi hle
      rcases Nat.lt_or_eq_of_le hle with hlt | rfl
      · exact ih.1 (Progress.isSome_after_of_le h (Nat.le_succ n)) i hi (by omega)
      · obtain ⟨z, hz⟩ := Option.isSome_iff_exists.1 h
        obtain ⟨y, hy, hvalue, hstays⟩ := Progress.after_succ_eq_some_iff.1 hz
        exact ⟨(fits_succ_iff hy).2 ⟨z, hvalue⟩, (continues_succ_iff hy hvalue).2 hstays⟩
    · intro h
      obtain ⟨y, hy⟩ := Option.isSome_iff_exists.1 (ih.2 fun i hi hle => h i hi (by omega))
      obtain ⟨hfits, hcontinues⟩ := h (n + 1) (by omega) le_rfl
      obtain ⟨z, hz⟩ := (fits_succ_iff hy).1 hfits
      rw [Progress.after_succ_eq_some_iff.2 ⟨y, hy, hz, (continues_succ_iff hy hz).1 hcontinues⟩]
      rfl

/-! ## Verdicts -/

theorem tripCount_eq (hinitial : v.initial = .constant initial)
    (hbound : v.bound = .constant bound) :
    v.tripCount inverse limit =
      (Trips.verdictFrom v.apply (v.leavesAt inverse bound) limit 0 initial).map
        fun count => some count.toNat := by
  rw [tripCount, hinitial, hbound]
  simp only [ValueSource.constant?, verdict_eq]

section Constant

variable (hinitial : v.initial = .constant initial) (hbound : v.bound = .constant bound)
include hinitial hbound

/-- Counting comes out in one of the four ways. -/
theorem exists_ending (inverse : Bool) (limit : UInt32) :
    ∃ answer, Progress.Ending v.apply (v.leavesAt inverse bound) limit initial answer ∧
      v.tripCount inverse limit = answer.map fun count => some count.toNat := by
  obtain ⟨answer, h⟩ := Progress.exists_ending v.apply (v.leavesAt inverse bound) limit initial
  exact ⟨answer, h, by rw [tripCount_eq hinitial hbound, h.verdictFrom_eq]⟩

theorem tripCount_of_ending {answer : Except Refusal Trips}
    (h : Progress.Ending v.apply (v.leavesAt inverse bound) limit initial answer) :
    v.tripCount inverse limit = answer.map fun count => some count.toNat := by
  rw [tripCount_eq hinitial hbound, h.verdictFrom_eq]

/-- A count comes with the iterations counted. -/
theorem left_of_tripCount {k : Nat} (h : v.tripCount inverse limit = .ok (some k)) :
    ∃ n y z, k = n + 1 ∧ k ≤ limit.toNat ∧
      Progress.after v.apply (v.leavesAt inverse bound) initial n = some y ∧
      (v.apply (.ofInt32 y)).value? = some z ∧ v.leavesAt inverse bound z = true := by
  obtain ⟨answer, hending, heq⟩ := exists_ending hinitial hbound inverse limit
  rw [h] at heq
  cases hending with
  | @left n y z hwithin hy hz hleaves =>
    obtain rfl : k = n + 1 := by
      rw [← Progress.toNat_ofNat_of_le hwithin]
      simpa [Except.map] using heq
    exact ⟨n, y, z, rfl, hwithin, hy, hz, hleaves⟩
  | overflow => cases heq
  | tooMany => cases heq
  | counter => cases heq

theorem tripCount_eq_ok_iff {k : Nat} :
    v.tripCount inverse limit = .ok (some k) ↔
      1 ≤ k ∧ k ≤ limit.toNat ∧ v.GoesOnFor inverse initial bound (k - 1) ∧ v.Fits initial k ∧
        ¬ v.Continues inverse initial bound k := by
  constructor
  · intro h
    obtain ⟨n, y, z, rfl, hle, hy, hz, hleaves⟩ := left_of_tripCount hinitial hbound h
    refine ⟨by omega, hle, isSome_after_iff.1 (by simp [hy]), (fits_succ_iff hy).2 ⟨z, hz⟩, ?_⟩
    rw [continues_succ_iff hy hz, hleaves]
    simp
  · rintro ⟨hk, hle, hgoes, hfits, hends⟩
    obtain ⟨n, rfl⟩ : ∃ n, k = n + 1 := ⟨k - 1, by omega⟩
    rw [Nat.add_sub_cancel] at hgoes
    obtain ⟨y, hy⟩ := Option.isSome_iff_exists.1 (isSome_after_iff.2 hgoes)
    obtain ⟨z, hz⟩ := (fits_succ_iff hy).1 hfits
    rw [continues_succ_iff hy hz, Bool.not_eq_false] at hends
    rw [tripCount_of_ending hinitial hbound (.left hle hy hz hends), Except.map,
      Progress.toNat_ofNat_of_le hle]

theorem tripCount_eq_overflow_iff :
    v.tripCount inverse limit = .error (.rejected .iterationOverflow) ↔
      ∃ k, 1 ≤ k ∧ k ≤ limit.toNat ∧ v.GoesOnFor inverse initial bound (k - 1) ∧
        ¬ v.Fits initial k := by
  constructor
  · intro h
    obtain ⟨answer, hending, heq⟩ :=
      exists_ending hinitial hbound inverse limit
    rw [h] at heq
    cases hending with
    | left => cases heq
    | @overflow n y hwithin hy hz =>
      refine ⟨n + 1, by omega, hwithin, isSome_after_iff.1 (by simp [hy]), ?_⟩
      rw [fits_succ_iff hy, hz]
      simp
    | tooMany => cases heq
    | counter => cases heq
  · rintro ⟨k, hk, hle, hgoes, hover⟩
    obtain ⟨n, rfl⟩ : ∃ n, k = n + 1 := ⟨k - 1, by omega⟩
    rw [Nat.add_sub_cancel] at hgoes
    obtain ⟨y, hy⟩ := Option.isSome_iff_exists.1 (isSome_after_iff.2 hgoes)
    rw [fits_succ_iff hy, ← Option.isSome_iff_exists, Option.not_isSome_iff_eq_none] at hover
    exact tripCount_of_ending hinitial hbound (.overflow hle hy hover)

theorem tripCount_eq_tooMany_iff {m : Nat} :
    v.tripCount inverse limit = .error (.rejected (.tooManyIterations m)) ↔
      m = limit.toNat ∧ limit.toNat < 4294967295 ∧
        v.GoesOnFor inverse initial bound limit.toNat := by
  constructor
  · intro h
    obtain ⟨answer, hending, heq⟩ :=
      exists_ending hinitial hbound inverse limit
    rw [h] at heq
    cases hending with
    | left => cases heq
    | overflow => cases heq
    | tooMany hbelow hgoes =>
      cases heq
      exact ⟨rfl, hbelow, isSome_after_iff.1 hgoes⟩
    | counter => cases heq
  · rintro ⟨rfl, hbelow, hgoes⟩
    exact tripCount_of_ending hinitial hbound (.tooMany hbelow (isSome_after_iff.2 hgoes))

theorem tripCount_eq_stopped_iff {e : Error} :
    v.tripCount inverse limit = .error (.stopped e) ↔
      e = .counterOverflow ∧ limit.toNat = 4294967295 ∧
        v.GoesOnFor inverse initial bound limit.toNat := by
  constructor
  · intro h
    obtain ⟨answer, hending, heq⟩ :=
      exists_ending hinitial hbound inverse limit
    rw [h] at heq
    cases hending with
    | left => cases heq
    | overflow => cases heq
    | tooMany => cases heq
    | counter hlargest hgoes =>
      cases heq
      exact ⟨rfl, hlargest, isSome_after_iff.1 hgoes⟩
  · rintro ⟨rfl, hlargest, hgoes⟩
    exact tripCount_of_ending hinitial hbound (.counter hlargest (isSome_after_iff.2 hgoes))

/-- **Every verdict is exact.**  A count comes out exactly when control leaves the loop with that
iteration, the count is within the limit and all values have 32 bits.  Overflow is reported exactly
when an iteration within the limit has no value of 32 bits, and counting is given up only when all
iterations up to the limit go on.  It then is given up below the largest limit; under that one the
counter overflows instead, and there is no verdict. -/
theorem tripCount_exact :
    (∀ k, v.tripCount inverse limit = .ok (some k) ↔
      1 ≤ k ∧ k ≤ limit.toNat ∧ v.GoesOnFor inverse initial bound (k - 1) ∧ v.Fits initial k ∧
        ¬ v.Continues inverse initial bound k) ∧
    (v.tripCount inverse limit = .error (.rejected .iterationOverflow) ↔
      ∃ k, 1 ≤ k ∧ k ≤ limit.toNat ∧ v.GoesOnFor inverse initial bound (k - 1) ∧
        ¬ v.Fits initial k) ∧
    (∀ m, v.tripCount inverse limit = .error (.rejected (.tooManyIterations m)) ↔
      m = limit.toNat ∧ limit.toNat < 4294967295 ∧
        v.GoesOnFor inverse initial bound limit.toNat) ∧
    (∀ e, v.tripCount inverse limit = .error (.stopped e) ↔
      e = .counterOverflow ∧ limit.toNat = 4294967295 ∧
        v.GoesOnFor inverse initial bound limit.toNat) :=
  ⟨fun _ => tripCount_eq_ok_iff hinitial hbound, tripCount_eq_overflow_iff hinitial hbound,
    fun _ => tripCount_eq_tooMany_iff hinitial hbound,
    fun _ => tripCount_eq_stopped_iff hinitial hbound⟩

/-- **Counting ends with a verdict, and the counter never overflows**, unless the limit is the
largest one and all iterations up to it go on. -/
theorem tripCount_ends :
    ((∀ e, v.tripCount inverse limit ≠ .error (.stopped e)) ∧
      ∀ count value, Progress.Heads v.apply (v.leavesAt inverse bound) limit initial count value →
        count.toNat + 1 ≤ 4294967295) ↔
    (limit.toNat < 4294967295 ∨ ¬ v.GoesOnFor inverse initial bound 4294967295) := by
  have := limit.toNat_lt
  constructor
  · rintro ⟨hverdict, _⟩
    by_contra hcontra
    push Not at hcontra
    obtain ⟨hlargest, hgoes⟩ := hcontra
    obtain hlimit : limit.toNat = 4294967295 := by omega
    exact hverdict _ ((tripCount_eq_stopped_iff hinitial hbound).2 ⟨rfl, hlimit, hlimit ▸ hgoes⟩)
  · intro h
    refine ⟨?_, ?_⟩
    · intro e hstopped
      obtain ⟨_, hlimit, hgoes⟩ := (tripCount_eq_stopped_iff hinitial hbound).1 hstopped
      rcases h with hbelow | hends
      · omega
      · exact hends (hlimit ▸ hgoes)
    · intro count value hhead
      obtain ⟨n, hle, hvalue, rfl⟩ := Progress.heads_iff.1 hhead
      rw [Progress.toNat_ofNat_of_le hle]
      rcases h with hbelow | hends
      · omega
      · by_contra hge
        exact hends (isSome_after_iff.1
          (Progress.isSome_after_of_le (m := n) (by simp [hvalue]) (by omega)))

end Constant

/-- A variable that goes from 0 to 3. -/
def counter : InductionVariable where
  slot := 0
  update := 0
  updateKind := .arithAdd
  step := 1
  compare := .compareLess
  initial := .constant 0
  bound := .constant 3

theorem tripCount_exact_counter :
    counter.GoesOnFor false 0 3 2 ∧ counter.Fits 0 3 ∧ ¬ counter.Continues false 0 3 3 := by
  have hcount : counter.tripCount false 16 = .ok (some 3) := by cbv
  exact (((tripCount_exact rfl rfl).1 3).1 hcount).2.2

/-! ## Counting from one end of the range to the other -/

/-- A variable that runs through all 32-bit values, compared with the first one. -/
def climbing : InductionVariable where
  slot := 0
  update := 5
  updateKind := .arithAdd
  step := 1
  compare := .compareEq
  initial := .constant (-2147483648)
  bound := .constant (-2147483648)

theorem after_climbing (n : Nat) (hn : n ≤ 4294967295) :
    Progress.after climbing.apply (climbing.leavesAt true (-2147483648)) (-2147483648) n =
      some (.ofInt (n - 2147483648)) := by
  induction n with
  | zero => rfl
  | succ n ih =>
    have hstart : (-2147483648 : Int32).toInt = -2147483648 := rfl
    have hvalue : ∀ m : Nat, m ≤ 4294967295 →
        (Int32.ofInt (m - 2147483648)).toInt = m - 2147483648 :=
      fun m hm => Int32.toInt_ofInt_of_le (by omega) (by omega)
    refine Progress.after_succ_eq_some_iff.2 ⟨_, ih (by omega), ?_, ?_⟩
    · have hupdate : ∀ x, climbing.exactUpdate x = some (x + 1) := fun _ => rfl
      rw [apply_eq, hupdate, Option.bind_some, fit?_eq_some_iff, hvalue _ hn, hvalue n (by omega)]
      push_cast
      ring
    · have htest : ∀ x b, climbing.exactTest x b = decide (x = b) := fun _ _ => rfl
      rw [leavesAt, test_eq, htest, hvalue _ hn, hstart]
      simp only [beq_true, decide_eq_false_iff_not]
      push_cast
      omega

theorem goesOnFor_climbing {n : Nat} (hn : n ≤ 4294967295) :
    climbing.GoesOnFor true (-2147483648) (-2147483648) n :=
  isSome_after_iff.1 (by simp [after_climbing n hn])

/-- Below the largest limit, counting through nearly all 32-bit values ends. -/
theorem tripCount_ends_climbing :
    (∀ e, climbing.tripCount true 4294967294 ≠ .error (.stopped e)) ∧
      ∀ count value, Progress.Heads climbing.apply (climbing.leavesAt true (-2147483648)) 4294967294
        (-2147483648) count value → count.toNat + 1 ≤ 4294967295 :=
  (tripCount_ends rfl rfl).2 (.inl (by decide))

/-- Under the largest limit, the counter comes to the largest number and overflows, and there is no
verdict. -/
theorem climbing_overflows :
    (∃ value, Progress.Heads climbing.apply (climbing.leavesAt true (-2147483648)) 4294967295
      (-2147483648) 4294967295 value) ∧
    climbing.tripCount true 4294967295 = .error (.stopped .counterOverflow) :=
  ⟨⟨_, Progress.heads_iff.2 ⟨4294967295, le_rfl, after_climbing 4294967295 le_rfl, rfl⟩⟩,
    (tripCount_eq_stopped_iff rfl rfl).2 ⟨rfl, rfl, goesOnFor_climbing le_rfl⟩⟩

end Unroller.InductionVariable
