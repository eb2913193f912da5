/-!
# Elapsed time as text

A time is written in the largest unit that leaves at least one whole: seconds, milliseconds,
microseconds or nanoseconds, with two places, a half going to the even neighbour.
-/

namespace Unroller.Decimal

/-- `num / den` rounded to the nearest whole number, a half to the even neighbour. -/
def roundDiv (num den : Nat) : Nat :=
  let quotient := num / den
  let rest := num % den
  if 2 * rest < den then quotient
  else if den < 2 * rest then quotient + 1
  else quotient + quotient % 2

/-- `num / den` with two places. -/
def twoPlaces (num den : Nat) : String :=
  let hundredths := roundDiv (100 * num) den
  let places := hundredths % 100
  s!"{hundredths / 100}." ++ (if places < 10 then "0" else "") ++ toString places

/-- The text of a time given in nanoseconds. -/
def elapsed (nanoseconds : Nat) : String :=
  if 1000000000 ≤ nanoseconds then twoPlaces nanoseconds 1000000000 ++ "s"
  else if 1000000 ≤ nanoseconds then twoPlaces nanoseconds 1000000 ++ "ms"
  else if 1000 ≤ nanoseconds then twoPlaces nanoseconds 1000 ++ "µs"
  else twoPlaces nanoseconds 1 ++ "ns"

end Unroller.Decimal
