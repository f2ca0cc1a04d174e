import Mlog.Json.Read
import Mlog.Number.Read

/-!
# What a JSON number is worth

A settings file's numbers become doubles in two steps: as many leading digits as fit in 64 bits
are collected, and the result is then multiplied or divided by a power of ten.  Each of the two
operations rounds, so the last place may differ from that of the nearest double.  A number too
large for a double has no value.
-/
set_option autoImplicit false

namespace Mlog.Json

/-- The greatest number of 64 bits. -/
def maxWord : Nat := Number.twoTo 64 - 1

/-- The value of a digit. -/
def digitValue (c : Char) : Nat := c.toNat - '0'.toNat

/-- Collects the digits of the whole part behind a number of them: the digits that do not fit any
more are only counted. -/
def collectWhole : (collected : Nat) → List Char → Nat × Int
  | n, [] => (n, 0)
  | n, c :: cs =>
    let next := 10 * n + digitValue c
    if maxWord < next then (n, (cs.length : Int) + 1) else collectWhole next cs

/-- Collects the digits of the fraction behind a number of digits, and how far they move the point;
the digits that do not fit any more are dropped. -/
def collectFraction : (collected : Nat) → (exponent : Int) → List Char → Nat × Int
  | n, e, [] => (n, e)
  | n, e, c :: cs =>
    let next := 10 * n + digitValue c
    if maxWord < next then (n, e) else collectFraction next (e - 1) cs

/-- The greatest exponent of ten that is a double. -/
def maxPower : Nat := 308

/-- A power of ten as a double. -/
def power (n : Nat) : Double := Double.ofNat false (Number.tenTo n)

/-- A number divided by a power of ten, in steps that each divide by a double. -/
def scaleDown (x : Double) (n : Nat) : Double :=
  if n ≤ maxPower then x.div (power n)
  else if x.isZero then x
  else scaleDown (x.div (power maxPower)) (n - maxPower)
termination_by n
decreasing_by simp only [maxPower] at *; omega

/-- A number times a power of ten, if it is in range. -/
def scale? (x : Double) (exponent : Int) : Option Double :=
  if exponent < 0 then some (scaleDown x exponent.natAbs)
  else if exponent.toNat ≤ maxPower then
    let y := x.mul (power exponent.toNat)
    if y.isInfinite then none else some y
  else if x.isZero then some x
  else none

/-- A number with its sign. -/
def signed (negative : Bool) (x : Double) : Double := Double.ofBody negative x.body

/-- The bound of an exponent as it is written. -/
def exponentLimit : Nat := Number.twoTo 31

/-- The value of a number.  An exponent too long to count makes it zero if it is negative or the
digits are all zero. -/
def NumberParts.value? (p : NumberParts) : Option Double :=
  let (n, e) := collectWhole 0 p.whole
  let (n, e) := collectFraction n e p.fraction
  let x := Double.ofNat false n
  let magnitude : Option Double :=
    match p.exponent with
    | none => scale? x e
    | some (negative, ds) =>
      let written := Number.ofDigits ds
      if exponentLimit ≤ written then
        if n == 0 || negative then some (Double.zero false) else none
      else scale? x (if negative then e - written else e + written)
  magnitude.map (signed p.negative)

/-- The value of a number as it was written. -/
def double? (lexeme : String) : Option Double :=
  (numberParts lexeme.toList).bind fun (p, _) => p.value?

end Mlog.Json
