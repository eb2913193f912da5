/-!
# 32-bit arithmetic that notices overflow

The partial operations on `Int32` compute in 64 bits, where nothing overflows, and answer `none`
when the exact result is undefined or does not fit.  A `CheckedInt` carries such an answer through a
computation: once overflowed, it stays so.

* `fit?` and `narrow?` are the range tests, of an integer and of a 64-bit one;
* `CheckedInt.add`, `sub`, `mul`, `div` are overflowed as soon as one operand is.
-/

namespace Unroller

/-- The 32-bit integer with the exact value `n`, if there is one. -/
def fit? (n : Int) : Option Int32 :=
  if -2147483648 ≤ n ∧ n ≤ 2147483647 then some (Int32.ofInt n) else none

/-- The 32-bit integer with the same value, if there is one. -/
@[inline] def narrow? (n : Int64) : Option Int32 :=
  if n.toInt32.toInt64 = n then some n.toInt32 else none

/-- The exact sum, if it fits. -/
@[inline] def add? (a b : Int32) : Option Int32 := narrow? (a.toInt64 + b.toInt64)

/-- The exact difference, if it fits. -/
@[inline] def sub? (a b : Int32) : Option Int32 := narrow? (a.toInt64 - b.toInt64)

/-- The exact product, if it fits. -/
@[inline] def mul? (a b : Int32) : Option Int32 := narrow? (a.toInt64 * b.toInt64)

/-- The quotient rounded toward zero, if the divisor is not zero and the quotient fits. -/
@[inline] def div? (a b : Int32) : Option Int32 :=
  if b = 0 then none else narrow? (a.toInt64 / b.toInt64)

/-- The remainder of `div?`, which takes the sign of the dividend; undefined exactly when the
quotient is. -/
def rem? (a b : Int32) : Option Int32 :=
  (div? a b).bind fun _ => narrow? (a.toInt64 % b.toInt64)

/-- The exact negation, if it fits. -/
def neg? (a : Int32) : Option Int32 := narrow? (-a.toInt64)

/-- A 32-bit integer, or the mark that a computation has overflowed. -/
structure CheckedInt where
  /-- The value, unless the computation has overflowed. -/
  value? : Option Int32
deriving DecidableEq, Inhabited

namespace CheckedInt

/-- A value that has not overflowed. -/
@[inline] def ofInt32 (n : Int32) : CheckedInt := ⟨some n⟩

/-- The overflowed value. -/
def overflow : CheckedInt := ⟨none⟩

/-- Whether the computation has overflowed. -/
def hasOverflowed (a : CheckedInt) : Bool := a.value?.isNone

/-- Applies a partial operation to two values neither of which has overflowed. -/
@[inline] def combine (op : Int32 → Int32 → Option Int32) (a b : CheckedInt) : CheckedInt :=
  ⟨a.value?.bind fun x => b.value?.bind fun y => op x y⟩

/-- Checked addition. -/
@[inline] def add : CheckedInt → CheckedInt → CheckedInt := combine add?

/-- Checked subtraction. -/
@[inline] def sub : CheckedInt → CheckedInt → CheckedInt := combine sub?

/-- Checked multiplication. -/
@[inline] def mul : CheckedInt → CheckedInt → CheckedInt := combine mul?

/-- Checked division toward zero. -/
@[inline] def div : CheckedInt → CheckedInt → CheckedInt := combine div?

/-- The value, or the word `overflow`, under the type's display name. -/
def render (a : CheckedInt) : String :=
  match a.value? with
  | some n => s!"CheckedInt32({n.toInt})"
  | none => "CheckedInt32(overflow)"

end CheckedInt

end Unroller
