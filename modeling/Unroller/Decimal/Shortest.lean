/-!
# The shortest decimal that reads back as a binary floating-point number

A positive finite number is `m · 2^q`.  The reals that round to it form an interval; its ends
belong to it exactly when `m` is even.  For one, two, … digits the two neighbours of the number on
that decimal grid are tried in exact arithmetic: the first grid with a neighbour inside the interval
wins, and of two neighbours inside, the nearer one (the upper one when they are equally near).

* `magnitude` takes a number apart;
* `shortest` finds the decimal digits and the position of the point.
-/

namespace Unroller.Decimal

/-- A positive binary number `mantissa · 2^exponent`. -/
structure Binary where
  /-- The integer significand, positive. -/
  mantissa : Nat
  /-- The power of two. -/
  exponent : Int
  /-- Whether the next smaller number is only half as far away as the next larger one. -/
  narrowBelow : Bool
deriving DecidableEq, Inhabited

/-- A positive decimal number `digits · 10^exponent`. -/
structure Numeral where
  /-- The significant digits as a number. -/
  digits : Nat
  /-- The power of ten. -/
  exponent : Int
deriving DecidableEq, Inhabited

/-- What the bits of a 64-bit floating-point number say about its size. -/
inductive Magnitude where
  | nan
  | infinite
  | zero
  | finite (value : Binary)
deriving DecidableEq, Inhabited

/-- The magnitude of the number with the given bits. -/
def magnitude (bits : UInt64) : Magnitude :=
  let field := ((bits >>> 52) &&& 0x7FF).toNat
  let fraction := (bits &&& 0xFFFFFFFFFFFFF).toNat
  if field = 0x7FF then (if fraction = 0 then .infinite else .nan)
  else if field = 0 then
    if fraction = 0 then .zero else .finite ⟨fraction, -1074, false⟩
  else .finite ⟨fraction + 0x10000000000000, field - 1075, fraction = 0 && field > 1⟩

/-- Whether the number with the given bits carries a minus sign. -/
def isNegative (bits : UInt64) : Bool := bits >>> 63 != 0

/-- A non-negative fraction with a positive denominator. -/
structure Fraction where
  num : Nat
  den : Nat
deriving DecidableEq, Inhabited

/-- `n · 2^e` for an integer exponent. -/
def scale2 (n : Nat) (e : Int) : Fraction :=
  if 0 ≤ e then ⟨n * Nat.pow 2 e.toNat, 1⟩ else ⟨n, Nat.pow 2 (-e).toNat⟩

/-- `f · 10^e` for an integer exponent. -/
def scale10 (f : Fraction) (e : Int) : Fraction :=
  if 0 ≤ e then ⟨f.num * Nat.pow 10 e.toNat, f.den⟩ else ⟨f.num, f.den * Nat.pow 10 (-e).toNat⟩

/-- The comparison of two fractions. -/
def less (f g : Fraction) : Bool := f.num * g.den < g.num * f.den

/-- Whether `f ≤ g`. -/
def lessEq (f g : Fraction) : Bool := f.num * g.den ≤ g.num * f.den

/-- The interval of reals that round to a number, with the number itself. -/
structure Interval where
  low : Fraction
  value : Fraction
  high : Fraction
  /-- Whether the two ends belong to the interval. -/
  closed : Bool

/-- The interval of a binary number. -/
def Binary.interval (b : Binary) : Interval where
  low := if b.narrowBelow then scale2 (4 * b.mantissa - 1) (b.exponent - 2)
    else scale2 (2 * b.mantissa - 1) (b.exponent - 1)
  value := scale2 b.mantissa b.exponent
  high := scale2 (2 * b.mantissa + 1) (b.exponent - 1)
  closed := b.mantissa % 2 = 0

/-- Whether `n · 10^e` rounds to the number. -/
def Interval.contains (i : Interval) (n : Nat) (e : Int) : Bool :=
  let f := scale10 ⟨n, 1⟩ e
  0 < n && if i.closed then lessEq i.low f && lessEq f i.high else less i.low f && less f i.high

/-- The point of the grid of multiples of `10^e` that the interval offers, if any. -/
def Interval.onGrid? (i : Interval) (e : Int) : Option Nat :=
  let scaled := scale10 i.value (-e)
  let below := scaled.num / scaled.den
  let above := below + 1
  match i.contains below e, i.contains above e with
  | true, true =>
    -- twice the distance of `below` against the whole gap
    if 2 * (scaled.num % scaled.den) < scaled.den then some below else some above
  | true, false => some below
  | false, true => some above
  | false, false => none

/-- The number of decimal digits of `n`. -/
def digitCount (n : Nat) : Nat := (Nat.toDigits 10 n).length

/-- The decimal exponent `k` with `10^(k-1) ≤ f < 10^k`, for a positive fraction. -/
def magnitude10 (f : Fraction) : Int :=
  if f.den ≤ f.num then digitCount (f.num / f.den)
  else
    let guess : Int := digitCount f.num - digitCount f.den
    if lessEq (scale10 ⟨1, 1⟩ guess) f then guess + 1 else guess

/-- The decimal with the zeros at the end of its digits moved into the exponent. -/
def stripZeros : (fuel : Nat) → Numeral → Numeral
  | 0, d => d
  | fuel + 1, d =>
    if d.digits % 10 = 0 && d.digits != 0 then stripZeros fuel ⟨d.digits / 10, d.exponent + 1⟩
    else d

/-- Tries grids of finer and finer step, starting with multiples of `10^e`. -/
def Interval.search (i : Interval) : (fuel : Nat) → (e : Int) → Numeral
  | 0, e => ⟨(scale10 i.value (-e)).num / (scale10 i.value (-e)).den, e⟩
  | fuel + 1, e =>
    match i.onGrid? e with
    | some n => stripZeros 400 ⟨n, e⟩
    | none => i.search fuel (e - 1)

/-- The shortest decimal that reads back as `b`; seventeen digits always suffice. -/
def shortest (b : Binary) : Numeral :=
  let i := b.interval
  i.search 20 (magnitude10 i.value)

end Unroller.Decimal
