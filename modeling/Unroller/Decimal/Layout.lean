import Unroller.Decimal.Shortest

/-!
# Laying out floating-point numbers as text

A `Layout` says which numbers are written with an exponent and whether a whole number keeps a
fraction.  Two layouts are in use:

* `Layout.plain`: always positional, `1`, `0.1`, `-0`; used for counts and constants;
* `Layout.tagged`: `1.0`, and an exponent from `1e16` up and below `1e-4`; used where a value is
  shown with its type.
-/

namespace Unroller.Decimal

/-- How a number is laid out. -/
structure Layout where
  /-- Whole positional numbers end in `.0`. -/
  keepPoint : Bool
  /-- Numbers outside `[10^low, 10^high)` are written with an exponent. -/
  window : Option (Int × Int)

/-- Positional throughout, without an empty fraction. -/
def Layout.plain : Layout := ⟨false, none⟩

/-- With a fraction, and with an exponent outside `[10^-4, 10^16)`. -/
def Layout.tagged : Layout := ⟨true, some (-4, 16)⟩

/-- A decimal written without an exponent. -/
def Layout.positional (layout : Layout) (d : Numeral) : String :=
  let digits := Nat.toDigits 10 d.digits
  if 0 ≤ d.exponent then
    String.ofList (digits ++ List.replicate d.exponent.toNat '0')
      ++ (if layout.keepPoint then ".0" else "")
  else
    let places := (-d.exponent).toNat
    let padded := List.replicate (places + 1 - digits.length) '0' ++ digits
    let whole := padded.take (padded.length - places)
    let fraction := padded.drop (padded.length - places)
    String.ofList (whole ++ '.' :: fraction)

/-- A decimal written with one digit before the point and an exponent. -/
def scientific (d : Numeral) : String :=
  let digits := Nat.toDigits 10 d.digits
  let exponent : Int := d.exponent + (digits.length - 1 : Nat)
  let fraction := digits.drop 1
  String.ofList (digits.take 1 ++ (if fraction.isEmpty then [] else '.' :: fraction))
    ++ "e" ++ toString exponent

/-- Whether a layout writes a decimal with an exponent. -/
def Layout.usesExponent (layout : Layout) (d : Numeral) : Bool :=
  match layout.window with
  | none => false
  | some (low, high) =>
    let top : Int := d.exponent + (digitCount d.digits : Nat)
    top ≤ low || high < top

/-- The text of the number with the given bits. -/
def Layout.render (layout : Layout) (bits : UInt64) : String :=
  let sign := if isNegative bits then "-" else ""
  match magnitude bits with
  | .nan => "NaN"
  | .infinite => sign ++ "inf"
  | .zero => sign ++ (if layout.keepPoint then "0.0" else "0")
  | .finite b =>
    let d := shortest b
    sign ++ (if layout.usesExponent d then scientific d else layout.positional d)

/-- The plain text of a floating-point number. -/
def text (x : Float) : String := Layout.plain.render x.toBits

/-- The text of a floating-point number shown with its type. -/
def taggedText (x : Float) : String := Layout.tagged.render x.toBits

end Unroller.Decimal
