/-!
# Places in a source text

A place is a file and a line in it.  Lines are counted from one.
-/
set_option autoImplicit false

namespace Mlog

/-- A line of a file. -/
structure Location where
  filename : String
  line : Nat
  deriving DecidableEq, Repr

/-- A place as reports show it: `file:line`. -/
def Location.text (l : Location) : String := l.filename ++ ":" ++ toString l.line

end Mlog
