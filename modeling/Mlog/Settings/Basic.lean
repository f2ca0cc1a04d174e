import Mlog.Constant
import Mlog.Text.Blank

/-!
# Settings

What a project says about how its units are compiled: who wrote it, the values of its constants,
and four switches.
-/
set_option autoImplicit false

namespace Mlog

/-- The switches of the compiler. -/
structure Options where
  /-- give the unit up at the first line that is rejected, instead of leaving the line out -/
  strict : Bool := false
  /-- the unit is for a world processor, so its instructions need no warning -/
  worldProcessor : Bool := false
  /-- show the place of every line that differs from its source -/
  includeSource : Bool := false
  /-- leave out labels that nothing jumps to -/
  removeUnusedJumpLabels : Bool := false
  deriving DecidableEq, Repr

/-- The settings of a project. -/
structure Settings where
  name : String := ""
  authors : List String := []
  constants : Constants := .empty
  options : Options := {}

/-- What is wrong with a definition. -/
inductive DefineError where
  | noEquals (definition : String)
  | noName (definition : String)
  deriving DecidableEq, Repr

/-- The report for a faulty definition. -/
def DefineError.message : DefineError → String
  | noEquals definition => "Expected NAME=VALUE, got \"" ++ definition ++ "\""
  | noName definition => "Missing constant name in \"" ++ definition ++ "\""

namespace Settings

/-- The settings with one more constant, given as `NAME=VALUE`; blanks around either half do not
count.  A definition takes the place of any earlier one. -/
def define (s : Settings) (definition : String) : Except DefineError Settings :=
  match Text.cutFirst '=' definition.toList with
  | none => .error (.noEquals definition)
  | some (name, value) =>
    let name := String.ofList (Text.trimChars name)
    if name.isEmpty then .error (.noName definition)
    else
      let value := Constant.parse (String.ofList (Text.trimChars value))
      .ok { s with constants := s.constants.insert name value }

end Settings

end Mlog
