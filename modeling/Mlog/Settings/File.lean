import Mlog.Json.Number
import Mlog.Settings.Basic

/-!
# The settings file

Settings are kept as a JSON object.  Every member may be left out, and a member with an unknown
name does not matter; a known one may appear once and has to be of the right kind.  An object with
fixed members may also be given as the list of their values in order, with the last ones left out.
-/
set_option autoImplicit false

namespace Mlog

/-- The deepest list that a constant may be. -/
def Constant.maxDepth : Nat := 125

/-- The constant that a JSON value is: a boolean, a number in range, a text, or a list of
constants. -/
def Constant.ofJson? : (depth : Nat) → Json → Option Constant
  | _, .bool b => some (boolean b)
  | _, .number lexeme => (Json.double? lexeme).map number
  | _, .string text => text.map string
  | depth + 1, .array items => (items.mapM (ofJson? depth)).map array
  | 0, .array _ => none
  | _, .null => none
  | _, .object _ => none

namespace Settings

/-! ## Reading -/

/-- The members of an object, if all of their names are text. -/
def named? (members : List (Option String × Json)) : Option (List (String × Json)) :=
  members.mapM fun (name, v) => name.map fun n => (n, v)

/-- The values of an object's members or of a list of them, in the order of the names.  A value
that is left out is `none`. -/
def fields? (names : List String) : Json → Option (List (Option Json))
  | .object members => do
    let members ← named? members
    names.mapM fun name =>
      match members.filter (·.1 == name) with
      | [] => some none
      | [(_, v)] => some (some v)
      | _ => none
  | .array items =>
    if names.length < items.length then none
    else some (names.zipIdx.map fun (_, i) => items[i]?)
  | _ => none

/-- The value of a member, or its default. -/
def orDefault {α : Type} (default : α) (read : Json → Option α) : Option Json → Option α
  | none => some default
  | some v => read v

/-- A boolean. -/
def bool? : Json → Option Bool
  | .bool b => some b
  | _ => none

/-- A text. -/
def text? : Json → Option String
  | .string text => text
  | _ => none

/-- A list of texts. -/
def texts? : Json → Option (List String)
  | .array items => items.mapM text?
  | _ => none

/-- The constants of an object; a later member takes the place of an earlier one. -/
def constants? : Json → Option Constants
  | .object members => do
    let members ← named? members
    let constants ← members.mapM fun (name, v) =>
      (Constant.ofJson? Constant.maxDepth v).map fun c => (name, c)
    return Dict.ofList constants
  | _ => none

/-- The names of the switches. -/
def optionNames : List String :=
  ["strict", "worldProcessor", "includeSource", "removeUnusedJumpLabels"]

/-- The switches of an object. -/
def options? (v : Json) : Option Options := do
  match ← fields? optionNames v with
  | [strict, worldProcessor, includeSource, removeUnusedJumpLabels] =>
    return {
      strict := ← orDefault false bool? strict
      worldProcessor := ← orDefault false bool? worldProcessor
      includeSource := ← orDefault false bool? includeSource
      removeUnusedJumpLabels := ← orDefault false bool? removeUnusedJumpLabels }
  | _ => none

/-- The names of the members of a settings file. -/
def memberNames : List String := ["name", "authors", "compilerConstants", "compilerOptions"]

/-- The settings that a JSON value is. -/
def ofJson? (v : Json) : Option Settings := do
  match ← fields? memberNames v with
  | [name, authors, constants, options] =>
    return {
      name := ← orDefault "" text? name
      authors := ← orDefault [] texts? authors
      constants := ← orDefault .empty constants? constants
      options := ← orDefault {} options? options }
  | _ => none

/-- The settings of a file's text. -/
def parse? (text : String) : Option Settings := (Json.parse? text).bind ofJson?

/-! ## Writing -/

/-- Numbers have a fraction even when they are whole, and an exponent with its sign when the point
lies far from their digits. -/
def numberStyle : NumberStyle where
  positional := fun point => -5 < point && point ≤ 16
  wholeMark := ".0"
  exponentPlus := "+"
  tie := .toEven
  signedZero := true
  infinity := "null"
  negativeInfinity := "null"
  nan := "null"

mutual

/-- A constant as a JSON value. -/
def constantJson : Constant → Json
  | .boolean b => .bool b
  | .number x => .number (x.text numberStyle)
  | .string s => .str s
  | .array cs => .array (constantsJson cs)

/-- A list of constants as JSON values. -/
def constantsJson : List Constant → List Json
  | [] => []
  | c :: cs => constantJson c :: constantsJson cs

end

/-- Settings as a JSON object, with all of its members. -/
def toJson (s : Settings) : Json :=
  .object [
    (some "name", .str s.name),
    (some "authors", .array (s.authors.map .str)),
    (some "compilerConstants",
      .object (s.constants.entries.map fun (name, c) => (some name, constantJson c))),
    (some "compilerOptions", .object [
      (some "strict", .bool s.options.strict),
      (some "worldProcessor", .bool s.options.worldProcessor),
      (some "includeSource", .bool s.options.includeSource),
      (some "removeUnusedJumpLabels", .bool s.options.removeUnusedJumpLabels)])]

/-- Settings as the text of a file. -/
def text (s : Settings) : String := s.toJson.pretty 0

end Settings

end Mlog
