import Mlog.Param.Basic
import Mlog.Text.Blank

/-!
# Signatures

A signature is a list of parameters written as words.  Reading one checks every word and then the
shape of the whole: what follows a variadic parameter is optional, there is one variadic parameter
at most, and a required parameter does not follow an optional one.
-/
set_option autoImplicit false

namespace Mlog

/-- What is wrong with a signature. -/
inductive SignatureError where
  | variadicKeyword (word : String)
  | unknownType (name : String)
  | unnamed (ty : Ty)
  | requiredAfterVariadic (name : String)
  | secondVariadic
  | requiredAfterOptional (name : String)
  deriving DecidableEq, Repr

namespace SignatureError

/-- The report for a faulty signature. -/
def message : SignatureError → String
  | variadicKeyword word => "Literal argument \"" ++ word ++ "\" cannot be variadic"
  | unknownType name => "Unknown argument type \"" ++ name ++ "\""
  | unnamed ty => "Argument of type " ++ ty.name ++ " has no name"
  | requiredAfterVariadic name =>
    "Argument \"" ++ name ++ "\" follows a variadic argument but is not optional"
  | secondVariadic => "A signature may contain only one variadic argument"
  | requiredAfterOptional name =>
    "Required argument \"" ++ name ++ "\" follows an optional argument"

end SignatureError

namespace Param

/-- The text without one `c` at its end, and whether it was there. -/
def stripEnd (c : Char) (cs : List Char) : List Char × Bool :=
  if cs.getLast? == some c then (cs.dropLast, true) else (cs, false)

/-- The text without a leading `...`, and whether it was there. -/
def stripDots : List Char → List Char × Bool
  | '.' :: '.' :: '.' :: cs => (cs, true)
  | cs => (cs, false)

/-- The text without a leading `*`, and whether it was there. -/
def stripStar : List Char → List Char × Bool
  | '*' :: cs => (cs, true)
  | cs => (cs, false)

/-- Reads one parameter.  The marks are taken off from outside in: `?` at the end, `...` at the
start, and `*` behind the first colon.  A word without a colon is a keyword. -/
def parse (spec : String) : Except SignatureError Param :=
  let (cs, optional) := stripEnd '?' spec.toList
  let (cs, variadic) := stripDots cs
  match Text.cutFirst ':' cs with
  | none =>
    if variadic then .error (.variadicKeyword (String.ofList cs))
    else .ok ⟨String.ofList cs, .keyword, optional⟩
  | some (name, tyText) =>
    let (tyName, written) := stripStar tyText
    match Ty.ofName? (String.ofList tyName) with
    | none => .error (.unknownType (String.ofList tyName))
    | some ty =>
      if name.isEmpty then .error (.unnamed ty)
      else .ok ⟨String.ofList name, .value ty written variadic, optional⟩

end Param

namespace Signature

/-- Checks the shape of a list of parameters, given whether an optional and whether a variadic one
came before. -/
def checkShape : (seenOptional seenVariadic : Bool) → List Param → Except SignatureError Unit
  | _, _, [] => .ok ()
  | seenOptional, seenVariadic, p :: ps =>
    if seenVariadic && !p.optional then .error (.requiredAfterVariadic p.name)
    else if seenVariadic && p.isVariadic then .error .secondVariadic
    else if seenOptional && !p.optional && !p.isVariadic then
      .error (.requiredAfterOptional p.name)
    else checkShape (seenOptional || p.optional) (seenVariadic || p.isVariadic) ps

/-- Reads a signature. -/
def parse (text : String) : Except SignatureError (List Param) := do
  let params ← (Text.words text).mapM Param.parse
  checkShape false false params
  return params

end Signature

end Mlog
