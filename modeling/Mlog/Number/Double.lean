import Mlog.Number.Power

/-!
# Double-precision numbers

Numeric constants are doubles.  A double is kept as its 64 bits and worked on as an exact fraction:
a finite one is a significand below 2^53 times a power of two, counted in units of 2^-1074, the
least positive double.  Every result is that of exact arithmetic on natural numbers, rounded once
to the nearest double with ties to the even significand.
-/
set_option autoImplicit false

namespace Mlog

/-- A double by its bits: the sign, eleven bits of exponent and 52 bits of fraction. -/
structure Double where
  bits : UInt64
  deriving DecidableEq, Repr

namespace Double

open Number (twoTo tenTo)

/-- The bits below the sign. -/
def body (x : Double) : Nat := x.bits.toNat % twoTo 63

/-- Whether the sign is set. -/
def isNegative (x : Double) : Bool := twoTo 63 ≤ x.bits.toNat

/-- The body of infinity: all of the exponent and none of the fraction. -/
def infinityBody : Nat := 2047 * twoTo 52

/-- Whether the number is an infinity of either sign. -/
def isInfinite (x : Double) : Bool := x.body == infinityBody

/-- Whether this is no number. -/
def isNaN (x : Double) : Bool := infinityBody < x.body

/-- Whether the number is a zero of either sign. -/
def isZero (x : Double) : Bool := x.body == 0

/-- A number by its sign and the bits below it; bodies above infinity's count as infinity. -/
def ofBody (negative : Bool) (body : Nat) : Double :=
  ⟨UInt64.ofNat ((if negative then twoTo 63 else 0) + min body infinityBody)⟩

/-- Zero with a sign. -/
def zero (negative : Bool) : Double := ofBody negative 0

/-- Infinity with a sign. -/
def infinity (negative : Bool) : Double := ofBody negative infinityBody

/-- The value that is no number. -/
def nan : Double := ⟨0x7FF8000000000000⟩

/-- The exponent of a finite number's last place, counted from that of the least double. -/
def exponent (x : Double) : Nat := x.body / twoTo 52 - 1

/-- The significand of a finite number: its fraction, with the leading bit that the exponent
implies. -/
def significand (x : Double) : Nat := x.body - x.exponent * twoTo 52

/-- The size of a finite number in units of 2^-1074. -/
def units (x : Double) : Nat := x.significand * twoTo x.exponent

/-- The units in one. -/
def one : Nat := twoTo 1074

/-! ## Rounding -/

/-- The quotient rounded to the nearest natural number, a tie to the even one. -/
def divNearest (num den : Nat) : Nat :=
  let q := num / den
  let twice := 2 * (num % den)
  if twice < den then q else if den < twice then q + 1 else q + q % 2

/-- The double nearest to `num / den`, or infinity beyond the last.  The last place of the result
is chosen so that the significand fills 53 bits, or is the least one. -/
def ofRatio (negative : Bool) (num den : Nat) : Double :=
  let scaled := num * one
  let e := Nat.log2 (scaled / den) - 52
  ofBody negative (e * twoTo 52 + divNearest scaled (den * twoTo e))

/-- The double nearest to a natural number. -/
def ofNat (negative : Bool) (n : Nat) : Double := ofRatio negative n 1

/-- The product of two finite numbers. -/
def mul (x y : Double) : Double :=
  ofRatio (x.isNegative != y.isNegative) (x.units * y.units) (one * one)

/-- The quotient of two finite numbers, the second not zero. -/
def div (x y : Double) : Double :=
  ofRatio (x.isNegative != y.isNegative) x.units y.units

/-- The double nearest to `digits · 10^exponent`.  Where the decimal point lies far outside the
range of doubles the result is infinity or zero, and the power is not computed. -/
def ofDecimal (negative : Bool) (digits : Nat) (exponent : Int) : Double :=
  let point := (Nat.toDigits 10 digits).length + exponent
  if digits = 0 ∨ point < -330 then zero negative
  else if 310 < point then infinity negative
  else if 0 ≤ exponent then ofNat negative (digits * tenTo exponent.toNat)
  else ofRatio negative digits (tenTo exponent.natAbs)

end Double

end Mlog
