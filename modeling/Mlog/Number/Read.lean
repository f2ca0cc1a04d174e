import Mlog.Number.Double

/-!
# Reading numbers

Whole numbers with a bound, and decimals that become the nearest double.
-/
set_option autoImplicit false

namespace Mlog.Number

/-- The value of a run of the digits `0` to `9`. -/
def ofDigits (cs : List Char) : Nat :=
  cs.foldl (fun n c => 10 * n + (c.toNat - '0'.toNat)) 0

/-- A whole number below `bound`: one `+` at most, then digits, which may begin with zeros. -/
def whole? (bound : Nat) (text : String) : Option Nat :=
  let ds := match text.toList with
    | '+' :: cs => cs
    | cs => cs
  if !ds.isEmpty && ds.all Char.isDigit && ofDigits ds < bound then some (ofDigits ds) else none

/-- A sign at the start of a text, and what follows it. -/
def takeSign : List Char → Bool × List Char
  | '-' :: cs => (true, cs)
  | '+' :: cs => (false, cs)
  | cs => (false, cs)

/-- Nothing, or an exponent such as `e5`, `E+5` or `e-5`, to the end of the text. -/
def exponent? : List Char → Option Int
  | [] => some 0
  | c :: cs =>
    if c == 'e' || c == 'E' then
      let (negative, ds) := takeSign cs
      if !ds.isEmpty && ds.all Char.isDigit then
        some (if negative then -(ofDigits ds : Int) else ofDigits ds)
      else none
    else none

/-- The fraction digits at the start of a text, and what follows them. -/
def takeFraction : List Char → List Char × List Char
  | '.' :: cs => (cs.takeWhile Char.isDigit, cs.dropWhile Char.isDigit)
  | cs => ([], cs)

/-- A decimal as the nearest double.  It has a sign or none, digits on at least one side of the
point, and an exponent or none; or it is `inf`, `infinity` or `nan` in any case.  A number too
large becomes infinity. -/
def double? (text : String) : Option Double :=
  let (negative, cs) := takeSign text.toList
  let lower := String.ofList (cs.map Char.toLower)
  if lower == "inf" || lower == "infinity" then some (.infinity negative)
  else if lower == "nan" then some .nan
  else
    let whole := cs.takeWhile Char.isDigit
    let (fraction, after) := takeFraction (cs.dropWhile Char.isDigit)
    if whole.isEmpty && fraction.isEmpty then none
    else (exponent? after).map fun e =>
      .ofDecimal negative (ofDigits (whole ++ fraction)) (e - fraction.length)

end Mlog.Number
