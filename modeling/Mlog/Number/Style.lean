import Mlog.Number.Shortest

/-!
# Writing numbers

A number is written with the fewest digits that read back.  What else there is to decide is a
record: up to where the digits are laid out around the point, whether a whole number shows a
fraction, whether an exponent shows a plus sign, how a tie goes, and what stands for the values that
have no digits.
-/
set_option autoImplicit false

namespace Mlog

/-- The decisions of a way to write numbers. -/
structure NumberStyle where
  /-- whether a decimal point at this place is written out; otherwise an exponent is used -/
  positional : Int → Bool
  /-- what is put behind a whole number -/
  wholeMark : String
  /-- what is put before an exponent that is not negative -/
  exponentPlus : String
  tie : Tie
  /-- whether the sign of a negative zero is written -/
  signedZero : Bool
  infinity : String
  negativeInfinity : String
  nan : String

namespace Decimal

/-- The digits laid out around the point. -/
def positional (d : Decimal) (wholeMark : String) : String :=
  let count : Int := d.digits.length
  if d.point ≤ 0 then
    "0." ++ String.ofList (List.replicate d.point.natAbs '0' ++ d.digits)
  else if d.point < count then
    String.ofList (d.digits.take d.point.toNat) ++ "." ++
      String.ofList (d.digits.drop d.point.toNat)
  else
    String.ofList (d.digits ++ List.replicate (d.point - count).toNat '0') ++ wholeMark

/-- One digit before the point, the others behind it, and an exponent. -/
def scientific (d : Decimal) (exponentPlus : String) : String :=
  let lead := String.ofList (d.digits.take 1)
  let fraction := d.digits.drop 1
  let point := if fraction.isEmpty then "" else "." ++ String.ofList fraction
  let plus := if 0 ≤ d.point - 1 then exponentPlus else ""
  lead ++ point ++ "e" ++ plus ++ toString (d.point - 1)

end Decimal

namespace Double

/-- The text of a number in a style. -/
def text (style : NumberStyle) (x : Double) : String :=
  if x.isNaN then style.nan
  else
    let sign := if x.isNegative then "-" else ""
    if x.isInfinite then if x.isNegative then style.negativeInfinity else style.infinity
    else if x.isZero then (if style.signedZero then sign else "") ++ "0" ++ style.wholeMark
    else
      let d := x.shortest style.tie
      sign ++ if style.positional d.point then d.positional style.wholeMark
        else d.scientific style.exponentPlus

end Double

end Mlog
