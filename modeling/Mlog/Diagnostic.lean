import Mlog.Instruction.Rejection
import Mlog.Location

/-!
# Diagnostics

What compiling a unit reports without giving up.  A diagnostic keeps what was found as data, and
the wording is in one place, `Finding.message`.  Every diagnostic is a warning: what is worse than
that ends the unit.
-/
set_option autoImplicit false

namespace Mlog

/-- Something worth a warning. -/
inductive Finding where
  /-- a reference to a constant that has no value -/
  | undefinedConstant (name : String)
  /-- a line that was left out of the output -/
  | skipped (rejection : Rejection)
  /-- an instruction that only world processors run -/
  | worldOnly (mnemonic : String)
  /-- a condition that is no truth value; its block is kept -/
  | unclearCondition (condition : String)
  /-- a variable written at two types that do not go together -/
  | conflictingTypes (name : String) (first : Ty) (firstAt : Location) (second : Ty)
      (secondAt : Location)
  /-- a variable that is read and never written -/
  | undefinedVariable (name : String) (reads : Nat)
  /-- a variable read as something it is not -/
  | mismatchedUse (name : String) (expected : List Ty) (defined : Ty) (definedAt : Location)
  | duplicateLabel (label : String) (sites : List Location)
  | missingLabel (label : String) (sites : List Location)
  deriving DecidableEq, Repr

/-- A list of places. -/
def Location.listText (sites : List Location) : String :=
  ", ".intercalate (sites.map Location.text)

/-- The text of a finding. -/
def Finding.message : Finding → String
  | undefinedConstant name => "Compiler constant \"" ++ name ++ "\" is not defined"
  | skipped rejection => rejection.message ++ " (line skipped)"
  | worldOnly mnemonic => "\"" ++ mnemonic ++ "\" only runs on world processors"
  | unclearCondition condition =>
    "Condition \"" ++ condition ++ "\" is not true, false or a number; the block is enabled"
  | conflictingTypes name first firstAt second secondAt =>
    "Variable \"" ++ name ++ "\" has conflicting types: defined as " ++ first.name ++ " at " ++
      firstAt.text ++ " and as " ++ second.name ++ " at " ++ secondAt.text
  | undefinedVariable name reads =>
    "Variable \"" ++ name ++ "\" seems undefined (read " ++ toString reads ++ " time(s))"
  | mismatchedUse name expected defined definedAt =>
    "Type mismatch: variable \"" ++ name ++ "\" is read as " ++
      " or ".intercalate (expected.map Ty.name) ++ " here but was defined as " ++ defined.name ++
      " at " ++ definedAt.text
  | duplicateLabel label sites =>
    "Jump label \"" ++ label ++ "\" is defined " ++ toString sites.length ++ " times at " ++
      Location.listText sites
  | missingLabel label sites =>
    "Jump label \"" ++ label ++ "\" is missing; it is used at " ++ Location.listText sites

/-- A warning about a place. -/
structure Diagnostic where
  finding : Finding
  location : Option Location
  deriving DecidableEq, Repr

namespace Diagnostic

/-- The text of the finding. -/
def message (d : Diagnostic) : String := d.finding.message

/-- The severity that reports show. -/
def severity (_ : Diagnostic) : String := "Warning"

/-- The warning as it is printed. -/
def text (d : Diagnostic) : String :=
  d.severity ++ ": " ++ d.message ++
    match d.location with
    | some l => "\n  --> " ++ l.text
    | none => ""

end Diagnostic

end Mlog
