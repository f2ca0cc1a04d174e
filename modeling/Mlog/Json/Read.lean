import Mlog.Json.Basic

/-!
# Reading JSON

The grammar of JSON to the letter: blanks are space, tab, line feed and carriage return; a number
has no leading zeros and digits on both sides of its point; a string holds no raw control
character; and nothing but blanks follows the value.
-/
set_option autoImplicit false

namespace Mlog.Json

/-- A reader takes a value off the front of a text and gives what is left. -/
abbrev Reader (α : Type) := List Char → Option (α × List Char)

/-- Whether a character is blank in JSON. -/
def isSpace (c : Char) : Bool := c == ' ' || c == '\t' || c == '\n' || c == '\r'

/-- The text from its first character that is not blank. -/
def skipSpace (cs : List Char) : List Char := cs.dropWhile isSpace

/-! ## Strings -/

/-- A part of a string: a character, or an escaped half of a surrogate pair. -/
inductive Unit16 where
  | char (c : Char)
  | high (n : Nat)
  | low (n : Nat)

/-- What four hexadecimal digits stand for. -/
def Unit16.ofNat (n : Nat) : Unit16 :=
  if 0xD800 ≤ n ∧ n < 0xDC00 then .high (n - 0xD800)
  else if 0xDC00 ≤ n ∧ n < 0xE000 then .low (n - 0xDC00)
  else .char (Char.ofNat n)

/-- The text of a string's parts.  A high half and the low half right behind it are one character;
a half that stands alone makes the whole no text. -/
def textOf : List Unit16 → Option (List Char)
  | [] => some []
  | .char c :: rest => (textOf rest).map (c :: ·)
  | .high h :: .low l :: rest =>
    (textOf rest).map (Char.ofNat (0x10000 + h * 0x400 + l) :: ·)
  | _ => none

/-- The value of a hexadecimal digit. -/
def hexValue? (c : Char) : Option Nat :=
  if c.isDigit then some (c.toNat - '0'.toNat)
  else if 'a' ≤ c && c ≤ 'f' then some (c.toNat - 'a'.toNat + 10)
  else if 'A' ≤ c && c ≤ 'F' then some (c.toNat - 'A'.toNat + 10)
  else none

/-- The character that a letter stands for behind a backslash. -/
def escaped? (c : Char) : Option Char :=
  if c == '"' || c == '\\' || c == '/' then some c
  else if c == 'b' then some (Char.ofNat 0x08)
  else if c == 'f' then some (Char.ofNat 0x0C)
  else if c == 'n' then some '\n'
  else if c == 'r' then some '\r'
  else if c == 't' then some '\t'
  else none

/-- The parts of a string, read behind its opening quote. -/
def stringParts : Reader (List Unit16)
  | [] => none
  | '"' :: cs => some ([], cs)
  | '\\' :: 'u' :: a :: b :: c :: d :: cs => do
    let n := (← hexValue? a) * 0x1000 + (← hexValue? b) * 0x100 + (← hexValue? c) * 0x10 +
      (← hexValue? d)
    let (parts, rest) ← stringParts cs
    return (.ofNat n :: parts, rest)
  | '\\' :: c :: cs => do
    let e ← escaped? c
    let (parts, rest) ← stringParts cs
    return (.char e :: parts, rest)
  | c :: cs => do
    if c == '\\' || c.toNat < 0x20 then none
    else
      let (parts, rest) ← stringParts cs
      return (.char c :: parts, rest)

/-- The text of a string, read behind its opening quote. -/
def stringBody : Reader (Option String) := fun cs => do
  let (parts, rest) ← stringParts cs
  return ((textOf parts).map String.ofList, rest)

/-! ## Numbers -/

/-- A non-empty run of digits. -/
def digits : Reader (List Char) := fun cs =>
  let ds := cs.takeWhile Char.isDigit
  if ds.isEmpty then none else some (ds, cs.dropWhile Char.isDigit)

/-- The parts of a number, each as it was written. -/
structure NumberParts where
  negative : Bool
  whole : List Char
  /-- the digits behind the point; none without a point -/
  fraction : List Char
  /-- the sign and the digits of the exponent -/
  exponent : Option (Bool × List Char)

/-- The whole part of a number: zero, or digits that do not begin with one. -/
def wholePart : Reader (List Char)
  | '0' :: cs => some (['0'], cs)
  | cs => digits cs

/-- The fraction of a number, if it has one. -/
def fractionPart : Reader (List Char)
  | '.' :: cs => digits cs
  | cs => some ([], cs)

/-- The exponent of a number, if it has one. -/
def exponentPart : Reader (Option (Bool × List Char))
  | [] => some (none, [])
  | c :: cs =>
    if c == 'e' || c == 'E' then do
      let (negative, cs) := match cs with
        | '-' :: cs => (true, cs)
        | '+' :: cs => (false, cs)
        | cs => (false, cs)
      let (ds, rest) ← digits cs
      return (some (negative, ds), rest)
    else some (none, c :: cs)

/-- A number. -/
def numberParts : Reader NumberParts := fun cs => do
  let (negative, cs) := match cs with
    | '-' :: cs => (true, cs)
    | cs => (false, cs)
  let (whole, cs) ← wholePart cs
  let (fraction, cs) ← fractionPart cs
  let (exponent, cs) ← exponentPart cs
  return (⟨negative, whole, fraction, exponent⟩, cs)

/-- A number as it was written. -/
def numberLexeme : Reader String := fun cs => do
  let (_, rest) ← numberParts cs
  return (String.ofList (cs.take (cs.length - rest.length)), rest)

/-! ## Values -/

/-- What stands behind a fixed word. -/
def word? (word : String) (cs : List Char) : Option (List Char) :=
  if word.toList.isPrefixOf cs then some (cs.drop word.toList.length) else none

mutual

/-- A value, with blanks in front of it allowed.  The fuel bounds the number of nested readers;
the length of the text is always enough. -/
def value : (fuel : Nat) → Reader Json
  | 0, _ => none
  | fuel + 1, cs =>
    match skipSpace cs with
    | '"' :: rest => do
      let (text, rest) ← stringBody rest
      return (.string text, rest)
    | '[' :: rest =>
      match skipSpace rest with
      | ']' :: rest => some (.array [], rest)
      | rest => do
        let (items, rest) ← items fuel rest
        return (.array items, rest)
    | '\x7b' :: rest =>
      match skipSpace rest with
      | '\x7d' :: rest => some (.object [], rest)
      | rest => do
        let (members, rest) ← members fuel rest
        return (.object members, rest)
    | rest =>
      (word? "null" rest).map (.null, ·)
        <|> (word? "true" rest).map (.bool true, ·)
        <|> (word? "false" rest).map (.bool false, ·)
        <|> (numberLexeme rest).map fun (lexeme, rest) => (.number lexeme, rest)

/-- The items of an array, up to and with its closing bracket. -/
def items : (fuel : Nat) → Reader (List Json)
  | 0, _ => none
  | fuel + 1, cs => do
    let (v, rest) ← value fuel cs
    match skipSpace rest with
    | ',' :: rest => do
      let (vs, rest) ← items fuel rest
      return (v :: vs, rest)
    | ']' :: rest => return ([v], rest)
    | _ => none

/-- The members of an object, up to and with its closing brace. -/
def members : (fuel : Nat) → Reader (List (Option String × Json))
  | 0, _ => none
  | fuel + 1, cs => do
    match skipSpace cs with
    | '"' :: rest => do
      let (name, rest) ← stringBody rest
      match skipSpace rest with
      | ':' :: rest => do
        let (v, rest) ← value fuel rest
        match skipSpace rest with
        | ',' :: rest => do
          let (ms, rest) ← members fuel rest
          return ((name, v) :: ms, rest)
        | '\x7d' :: rest => return ([(name, v)], rest)
        | _ => none
      | _ => none
    | _ => none

end

/-- The value of a JSON text. -/
def parse? (text : String) : Option Json := do
  let cs := text.toList
  let (v, rest) ← value (cs.length + 1) cs
  if (skipSpace rest).isEmpty then return v else none

end Mlog.Json
