import Mlog.Dict
import Mlog.Number.Read
import Mlog.Number.Style

/-!
# Compiler constants

The values that references stand for.  A constant is put into a statement as text: a list becomes
its members divided by spaces, which is how a loop takes its elements from one.
-/
set_option autoImplicit false

namespace Mlog

/-- The value of a compiler constant. -/
inductive Constant where
  | boolean (value : Bool)
  | number (value : Double)
  | string (value : String)
  | array (values : List Constant)
  deriving Repr

/-- Constants by name. -/
abbrev Constants := Dict Constant

namespace Constant

/-- Numbers are written out around the point, whatever their size; a whole number shows no
fraction, and zero no sign. -/
def numberStyle : NumberStyle where
  positional := fun _ => true
  wholeMark := ""
  exponentPlus := ""
  tie := .up
  signedZero := false
  infinity := "inf"
  negativeInfinity := "-inf"
  nan := "NaN"

mutual

/-- The text that a reference to the constant becomes. -/
def text : Constant → String
  | boolean b => if b then "true" else "false"
  | number x => x.text numberStyle
  | string s => s
  | array cs => " ".intercalate (texts cs)

/-- The texts of the members of a list. -/
def texts : List Constant → List String
  | [] => []
  | c :: cs => c.text :: texts cs

end

/-- Reads the value of a definition: a boolean, a number, or else the text itself. -/
def parse (value : String) : Constant :=
  if value == "true" then boolean true
  else if value == "false" then boolean false
  else match Number.double? value with
    | some x => number x
    | none => string value

end Constant

end Mlog
