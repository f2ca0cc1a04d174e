import Mlog.Ty.Basic

/-!
# Parameters

What an instruction expects at one position: a keyword, which stands there as it is, or a value of
some argument type.  A value may be written to, which takes a variable's name, and the last value
may be variadic, which takes every token that is left.

A parameter's text is the way it is written in a signature: `add` for a keyword, `out:*number` for
a written value, `alpha:number?` for an optional one and `...messages:any` for a variadic one.
-/
set_option autoImplicit false

namespace Mlog

/-- What may stand at a parameter's position. -/
inductive Param.Form where
  /-- the parameter's name itself -/
  | keyword
  /-- a value of type `ty`; `written` if the instruction writes to it -/
  | value (ty : Ty) (written variadic : Bool)
  deriving DecidableEq, Repr

/-- One parameter of an instruction. -/
structure Param where
  name : String
  form : Param.Form
  optional : Bool := false
  deriving DecidableEq, Repr

namespace Param

/-- The argument type of a value; a keyword has none. -/
def ty? (p : Param) : Option Ty :=
  match p.form with
  | .keyword => none
  | .value ty _ _ => some ty

/-- Whether the instruction writes to the value. -/
def isWritten (p : Param) : Bool :=
  match p.form with
  | .keyword => false
  | .value _ written _ => written

/-- Whether the parameter takes every token that is left. -/
def isVariadic (p : Param) : Bool :=
  match p.form with
  | .keyword => false
  | .value _ _ variadic => variadic

/-- The way the parameter is written in a signature. -/
def text (p : Param) : String :=
  let mark := if p.optional then "?" else ""
  match p.form with
  | .keyword => p.name ++ mark
  | .value ty written variadic =>
    (if variadic then "..." else "") ++ p.name ++ ":" ++ (if written then "*" else "") ++ ty.name ++
      mark

/-- Whether a token may stand at the parameter's position.  A written value takes only what looks
like a variable.  Any other value takes a token that its type does not exclude and that looks like
the type, is recognised by it, or looks like a type it admits. -/
def takes (p : Param) (token : String) : Bool :=
  match p.form with
  | .keyword => token == p.name
  | .value ty written _ =>
    let looks := Ty.guess token
    if written then looks == .variable
    else if ty.isWildcard then true
    else if ty.excludes.contains looks then false
    else looks == ty || ty.recognises token || ty.admits.contains looks

/-! ## Building parameters -/

/-- The keyword `name`. -/
def word (name : String) : Param := ⟨name, .keyword, false⟩

/-- A value that is read. -/
def val (name : String) (ty : Ty) : Param := ⟨name, .value ty false false, false⟩

/-- A value that may be left out. -/
def opt (name : String) (ty : Ty) : Param := ⟨name, .value ty false false, true⟩

/-- A variable that is written. -/
def out (name : String) (ty : Ty) : Param := ⟨name, .value ty true false, false⟩

/-- One value or more, up to the end of the statement. -/
def rest (name : String) (ty : Ty) : Param := ⟨name, .value ty false true, false⟩

end Param

end Mlog
