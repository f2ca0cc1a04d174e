import Mlog.Ty.Basic

/-!
# Rejections

Why a line is no instruction.  A rejection keeps its cause as data; the wording is in one place,
`Rejection.Cause.message`.
-/
set_option autoImplicit false

namespace Mlog

/-- The cause of a rejection. -/
inductive Rejection.Cause where
  /-- the number of operands is outside the bounds of `signature` -/
  | operandCount (signature : String) (least : Nat) (most : Option Nat) (given : Nat)
  /-- a written parameter needs a variable, and the token looks like something else -/
  | notWritable (token param : String) (looks : Ty)
  /-- the token does not fit the type of its parameter -/
  | wrongType (token : String) (expected looks : Ty)
  /-- the token is not the keyword of its parameter -/
  | wrongKeyword (expected token : String)
  /-- no overload fits, and none of their faults stands out; each overload is given by signature
  and description -/
  | noOverload (mnemonic : String) (overloads : List (String × String))
  | unknownCommand (mnemonic : String)
  | emptyLine
  deriving DecidableEq, Repr

/-- A line that no overload takes. -/
structure Rejection where
  cause : Rejection.Cause
  /-- raised by a block construct, which gives way to every other instruction -/
  lowPriority : Bool := false
  deriving DecidableEq, Repr

namespace Rejection

/-- The kinds of cause that the choice among several rejections tells apart. -/
inductive Kind where
  | operandCount | type | unknownCommand | emptyLine
  deriving DecidableEq, Repr

/-- The kind of a cause. -/
def Cause.kind : Cause → Kind
  | operandCount .. => .operandCount
  | notWritable .. | wrongType .. | wrongKeyword .. | noOverload .. => .type
  | unknownCommand _ => .unknownCommand
  | emptyLine => .emptyLine

/-- The bounds of a number of operands, in words. -/
def boundsText (least : Nat) : Option Nat → String
  | some most =>
    if most = least then toString least else toString least ++ " to " ++ toString most
  | none => "at least " ++ toString least

/-- The report for a cause. -/
def Cause.message : Cause → String
  | operandCount signature least most given =>
    "Incorrect number of arguments for \"" ++ signature ++ "\": expected " ++
      boundsText least most ++ ", got " ++ toString given
  | notWritable token param looks =>
    "Type mismatch: \"" ++ token ++ "\" must be a variable name to be written as " ++ param ++
      ", but looks like a " ++ looks.name
  | wrongType token expected looks =>
    "Type mismatch: value \"" ++ token ++ "\" was expected to be of type " ++ expected.name ++
      ", but was of type " ++ looks.name
  | wrongKeyword expected token => "Expected \"" ++ expected ++ "\", got \"" ++ token ++ "\""
  | noOverload mnemonic overloads =>
    "Line did not match any overloads for command \"" ++ mnemonic ++
      "\". Possible overloads:" ++
      String.join (overloads.map fun (signature, description) =>
        "\n    " ++ signature ++ "  (" ++ description ++ ")")
  | unknownCommand mnemonic => "Unknown command \"" ++ mnemonic ++ "\""
  | emptyLine => "Empty line has no command"

/-- The kind of a rejection. -/
def kind (r : Rejection) : Kind := r.cause.kind

/-- The report for a rejection. -/
def message (r : Rejection) : String := r.cause.message

end Rejection

end Mlog
