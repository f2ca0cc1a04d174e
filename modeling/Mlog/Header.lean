import Mlog.Text.Blank
import Mlog.Text.Word
import Mlog.Ty.Basic

/-!
# Directives and the program header

A line such as `#author someone` configures the unit instead of producing code.  It looks like a
comment, so it is recognised on the line as written, before comments are stripped: `#`, one of four
keywords, and no word character right behind it.

The header collects what the directives of a unit declare.  Requirements add up; each of the other
directives may appear once.
-/
set_option autoImplicit false

namespace Mlog

/-- What a unit is for. -/
inductive ProgramKind where
  /-- a program of its own -/
  | main
  /-- a body that other units call -/
  | function
  /-- not compiled on its own -/
  | never
  deriving DecidableEq, Repr

/-- The name of a kind of program. -/
def ProgramKind.name : ProgramKind → String
  | main => "main"
  | function => "function"
  | never => "never"

/-- The kind of program with a given name. -/
def ProgramKind.ofName? (name : String) : Option ProgramKind :=
  [main, function, never].find? fun k => k.name == name

/-- A function's name and parameters. -/
structure FunctionSignature where
  name : String
  params : List (String × Ty)
  deriving DecidableEq, Repr

/-- One directive. -/
inductive Directive where
  | require (names : List String)
  | programKind (kind : ProgramKind)
  | author (name : String)
  | function (signature : FunctionSignature)
  deriving DecidableEq, Repr

/-- What is wrong with a directive. -/
inductive DirectiveError where
  | notDirective (line : String)
  | noNames
  | unknownKind (text : String)
  | noAuthor
  | malformedFunction (text : String)
  | untypedParam (param : String)
  | unknownParamType (ty param : String)
  /-- the directive with this keyword came twice -/
  | duplicate (keyword : String)
  deriving DecidableEq, Repr

/-- The report for a faulty directive. -/
def DirectiveError.message : DirectiveError → String
  | notDirective line => "\"" ++ line ++ "\" is not a directive"
  | noNames => "#require needs at least one name"
  | unknownKind text =>
    "Invalid program type \"" ++ text ++ "\": expected main, function or never"
  | noAuthor => "#author needs a name"
  | malformedFunction text =>
    "Malformed #function directive \"" ++ text ++ "\": expected NAME(param:type, ...)"
  | untypedParam param => "Function parameter \"" ++ param ++ "\" has no type"
  | unknownParamType ty param =>
    "Unknown type \"" ++ ty ++ "\" for parameter \"" ++ param ++ "\""
  | duplicate keyword => "Duplicate #" ++ keyword ++ " directive"

namespace Directive

/-- The keywords of directives.  None is the beginning of another. -/
def keywords : List String := ["require", "program_type", "author", "function"]

/-- The keyword and the rest of a directive line. -/
def split? (line : String) : Option (String × String) :=
  match Text.trimChars line.toList with
  | '#' :: cs =>
    keywords.findSome? fun keyword =>
      let rest := cs.drop keyword.toList.length
      if keyword.toList.isPrefixOf cs && !(rest.head?.any Text.isWord) && !rest.contains '\n' then
        some (keyword, String.ofList (Text.trimChars rest))
      else none
  | _ => none

/-- Whether a line is a directive. -/
def isDirective (line : String) : Bool := (split? line).isSome

/-- Reads one parameter of a function, `name:type`. -/
def parseParam (param : String) : Except DirectiveError (String × Ty) :=
  match Text.cutFirst ':' param.toList with
  | none => .error (.untypedParam param)
  | some (name, ty) =>
    let name := String.ofList (Text.trimChars name)
    let tyName := String.ofList (Text.trimChars ty)
    match Ty.ofName? tyName with
    | some ty => .ok (name, ty)
    | none => .error (.unknownParamType tyName name)

/-- The name and the text between the parentheses of `name(...)`. -/
def functionParts? (text : String) : Option (String × String) :=
  match text.toList with
  | c :: cs =>
    if Text.isNameStart c then
      match (cs.dropWhile Text.isHyphenWord).dropWhile Text.isBlank with
      | '(' :: body =>
        if body.getLast? == some ')' then
          some (String.ofList (c :: cs.takeWhile Text.isHyphenWord), String.ofList body.dropLast)
        else none
      | _ => none
    else none
  | [] => none

/-- Reads a function's signature. -/
def parseFunction (text : String) : Except DirectiveError FunctionSignature :=
  match functionParts? text with
  | none => .error (.malformedFunction text)
  | some (name, params) => do
    let params ← (Text.entries params).mapM parseParam
    return ⟨name, params⟩

/-- Reads a directive line. -/
def parse (line : String) : Except DirectiveError Directive :=
  match split? line with
  | none => .error (.notDirective (Text.trim line))
  | some (keyword, rest) =>
    if keyword == "require" then
      let names := Text.entries rest
      if names.isEmpty then .error .noNames else .ok (require names)
    else if keyword == "program_type" then
      match ProgramKind.ofName? rest with
      | some kind => .ok (programKind kind)
      | none => .error (.unknownKind rest)
    else if keyword == "author" then
      if rest.isEmpty then .error .noAuthor else .ok (author rest)
    else (parseFunction rest).map function

end Directive

/-- What the directives of a unit declare. -/
structure Header where
  /-- the declared kind of program, if one was declared -/
  declaredKind : Option ProgramKind := none
  author : Option String := none
  requires : List String := []
  function : Option FunctionSignature := none
  deriving DecidableEq, Repr

namespace Header

/-- The kind of program: a unit that declares none is a program of its own. -/
def kind (h : Header) : ProgramKind := h.declaredKind.getD .main

/-- Adds the names that are not there yet, in order. -/
def addNames (present : List String) : List String → List String
  | [] => present
  | n :: ns => addNames (if present.contains n then present else present ++ [n]) ns

/-- The header after one more directive. -/
def apply (h : Header) : Directive → Except DirectiveError Header
  | .require names => .ok { h with requires := addNames h.requires names }
  | .programKind kind =>
    if h.declaredKind.isSome then .error (.duplicate "program_type")
    else .ok { h with declaredKind := some kind }
  | .author name =>
    if h.author.isSome then .error (.duplicate "author") else .ok { h with author := some name }
  | .function signature =>
    if h.function.isSome then .error (.duplicate "function")
    else .ok { h with function := some signature }

end Header

end Mlog
