import Mlog.Text.Word
import Mlog.Ty.Vocabulary

/-!
# Shapes of tokens

The argument types that are not given by a list of words are given by the shape of a token: a
number, the name of a linked building, a string literal, a jump target and so on.  Each shape is a
decision on the characters of the token from its first to its last.
-/
set_option autoImplicit false

namespace Mlog.Shape

/-- A non-empty run of decimal digits. -/
def isDigits (cs : List Char) : Bool := !cs.isEmpty && cs.all Text.isDigit

/-- A non-empty run of the digits `0` to `9`. -/
def isAsciiDigits (cs : List Char) : Bool := !cs.isEmpty && cs.all Char.isDigit

/-- A hexadecimal digit in either case. -/
def isHexDigit (c : Char) : Bool :=
  c.isDigit || ('a' ≤ c && c ≤ 'f') || ('A' ≤ c && c ≤ 'F')

/-- What follows a non-empty run of decimal digits at the start of a text. -/
def afterDigits? : List Char → Option (List Char)
  | [] => none
  | c :: cs => if Text.isDigit c then some (cs.dropWhile Text.isDigit) else none

/-- The text without one `c` at its start. -/
def dropOne (c : Char) : List Char → List Char
  | [] => []
  | d :: cs => if d == c then cs else d :: cs

/-- Nothing, or an exponent such as `e5` or `e-5`. -/
def isExponent : List Char → Bool
  | [] => true
  | c :: cs => c == 'e' && isDigits (dropOne '-' cs)

/-- Nothing or a fraction, then nothing or an exponent. -/
def isFraction : List Char → Bool
  | '.' :: cs => (afterDigits? cs).any isExponent
  | cs => isExponent cs

/-- A decimal number such as `-3.5e-2`: digits on both sides of the point. -/
def isDecimal (cs : List Char) : Bool := (afterDigits? (dropOne '-' cs)).any isFraction

/-- A number as it is written: decimal, `0x` hexadecimal, `0b` binary, or `%` and the six or eight
hexadecimal digits of a colour. -/
def isNumeral (cs : List Char) : Bool :=
  isDecimal cs ||
    match cs with
    | '0' :: 'x' :: ds => !ds.isEmpty && ds.all isHexDigit
    | '0' :: 'b' :: ds => !ds.isEmpty && ds.all fun c => c == '0' || c == '1'
    | '%' :: ds => (ds.length == 6 || ds.length == 8) && ds.all isHexDigit
    | _ => false

/-- A number, or a value that the processor provides as one. -/
def isNumber (token : String) : Bool :=
  Vocabulary.numericConstants.contains token || isNumeral token.toList

/-- A building by link name, such as `cell1`. -/
def isLink (cs : List Char) : Bool :=
  Vocabulary.buildingKinds.any fun kind =>
    kind.toList.isPrefixOf cs && isDigits (cs.drop kind.toList.length)

/-- A building: the processor itself or a linked one. -/
def isBuilding (token : String) : Bool := token == "@this" || isLink token.toList

/-- A block's name: a listed one, or `@` and an ASCII name with a hyphen in it. -/
def isBlock (token : String) : Bool :=
  Vocabulary.plainBlocks.contains token ||
    match token.toList with
    | '@' :: name => name.contains '-' && name.all fun c => c.isAlphanum || c == '-'
    | _ => false

/-- Any content: `@` and a name. -/
def isContent : List Char → Bool
  | '@' :: name => !name.isEmpty && name.all Text.isHyphenWord
  | _ => false

/-- A string literal: quotes at both ends and none between. -/
def isString : List Char → Bool
  | '"' :: cs => cs.dropWhile (· != '"') == ['"']
  | _ => false

/-- Whether a character can stand behind the first one of a label. -/
def isTargetChar (c : Char) : Bool :=
  Text.isWord c || c == '.' || c == '$' || c == '(' || c == ')' || c == '-'

/-- A jump target: an instruction number, or a label that may still hold references. -/
def isTarget (cs : List Char) : Bool :=
  isDigits cs ||
    match cs with
    | c :: rest => (Text.isNameStart c || c == '$') && rest.all isTargetChar
    | [] => false

/-- The property half of a shorthand. -/
def isSensedName (cs : List Char) : Bool :=
  match dropOne '@' cs with
  | c :: rest => c.isAlpha && rest.all Text.isHyphenWord
  | [] => false

/-- The shorthand `thing.property`, where either half may have its `@`. -/
def isShorthand (cs : List Char) : Bool :=
  match dropOne '@' cs with
  | c :: rest =>
    Text.isNameStart c &&
      match rest.dropWhile Text.isHyphenWord with
      | '.' :: property => isSensedName property
      | _ => false
  | [] => false

end Mlog.Shape
