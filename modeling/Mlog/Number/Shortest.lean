import Mlog.Number.Double

/-!
# The fewest digits that read back

Every real number near a double reads back as that double, so there is a decimal with fewest digits
among them.  For each number of digits in turn, the two multiples of the right power of ten on
either side of the value are tried; the first that lies within the interval wins, and of two the
nearer.  A tie is broken as the caller says.

All of it is exact arithmetic on natural numbers.
-/
set_option autoImplicit false

namespace Mlog

/-- A positive decimal: the number `0.d₁d₂…` times ten to the `point`. -/
structure Decimal where
  digits : List Char
  point : Int
  deriving DecidableEq, Repr

/-- Which of two equally near decimals to take. -/
inductive Tie where
  | up
  | toEven
  deriving DecidableEq, Repr

namespace Double

open Number (twoTo tenTo)

/-- A finite number as a fraction over `4 · one`, with the ends of the interval of reals that round
to it.  Below a power of two the gap is half as wide. -/
structure Interval where
  low : Nat
  value : Nat
  high : Nat
  /-- whether the ends round to the number as well -/
  closed : Bool

/-- The interval of a positive finite number. -/
def interval (x : Double) : Interval :=
  let gap := twoTo x.exponent
  let below := if x.significand = twoTo 52 ∧ 0 < x.exponent then gap else 2 * gap
  { low := 4 * x.units - below
    value := 4 * x.units
    high := 4 * x.units + 2 * gap
    closed := x.significand % 2 == 0 }

/-- Whether `num / den` lies in the interval. -/
def Interval.holds (i : Interval) (num den : Nat) : Bool :=
  let scaled := num * (4 * one)
  if i.closed then i.low * den ≤ scaled && scaled ≤ i.high * den
  else i.low * den < scaled && scaled < i.high * den

/-- The place of the decimal point: the value is less than ten to this power and no less than a
tenth of that. -/
def decimalPoint (x : Double) : Int :=
  (Nat.toDigits 10 (x.units * tenTo 330 / one)).length - 330

/-- A power of ten as a fraction. -/
def powerOfTen (e : Int) : Nat × Nat :=
  if 0 ≤ e then (tenTo e.toNat, 1) else (1, tenTo e.natAbs)

/-- The multiple of ten to the `place` to take for a number, if one of its two neighbours reads
back. -/
def nearestOnGrid (tie : Tie) (i : Interval) (place : Int) : Option Nat :=
  let (num, den) := powerOfTen place
  -- the value is `i.value / (4 · one)`, counted here in units of `num / den`
  let above := i.value * den
  let unit := num * (4 * one)
  let n := above / unit
  let twice := 2 * (above % unit)
  match i.holds (n * num) den, i.holds ((n + 1) * num) den with
  | true, true =>
    if twice < unit then some n
    else if unit < twice then some (n + 1)
    else match tie with
      | .up => some (n + 1)
      | .toEven => some (n + n % 2)
  | true, false => some n
  | false, true => some (n + 1)
  | false, false => none

/-- The list without the zeros at its end. -/
def dropTrailingZeros (ds : List Char) : List Char := (ds.reverse.dropWhile (· == '0')).reverse

/-- The decimal `n · 10^place`. -/
def decimalOf (n : Nat) (place : Int) : Decimal :=
  let ds := Nat.toDigits 10 n
  { digits := dropTrailingZeros ds, point := ds.length + place }

/-- The shortest decimal that reads back as a positive finite number.  Seventeen digits are always
enough. -/
def shortest (tie : Tie) (x : Double) : Decimal :=
  let i := x.interval
  let point := x.decimalPoint
  let found := (List.range 17).findSome? fun (k : Nat) =>
    let place := point - (k + 1)
    (nearestOnGrid tie i place).map fun n => decimalOf n place
  found.getD ⟨['0'], 0⟩

end Double

end Mlog
