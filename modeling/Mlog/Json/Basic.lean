/-!
# JSON values

The value of a JSON text and the way one is written out.  A number keeps the characters it was
written with, since what they are worth is for the reader of the value to say.  A string may hold
an escaped half of a surrogate pair that has no other half, and then it has no text.
-/
set_option autoImplicit false

namespace Mlog

/-- A JSON value. -/
inductive Json where
  | null
  | bool (value : Bool)
  /-- a number as it was written -/
  | number (lexeme : String)
  /-- a string; none if it is no text -/
  | string (text : Option String)
  | array (items : List Json)
  /-- the members in the order they were written, repeated names included -/
  | object (members : List (Option String × Json))
  deriving Repr, Inhabited

namespace Json

/-- A string value. -/
def str (text : String) : Json := string (some text)

/-! ## Writing -/

/-- The four digits of an escaped control character. -/
def controlDigits (n : Nat) : List Char :=
  ['0', '0', Nat.digitChar (n / 16), Nat.digitChar (n % 16)]

/-- A character inside a string: quotes, backslashes and control characters are escaped. -/
def escapeChar (c : Char) : List Char :=
  if c == '"' then ['\\', '"']
  else if c == '\\' then ['\\', '\\']
  else if c == '\n' then ['\\', 'n']
  else if c == '\r' then ['\\', 'r']
  else if c == '\t' then ['\\', 't']
  else if c.toNat == 0x08 then ['\\', 'b']
  else if c.toNat == 0x0C then ['\\', 'f']
  else if c.toNat < 0x20 then '\\' :: 'u' :: controlDigits c.toNat
  else [c]

/-- A string with its quotes. -/
def quoted (text : String) : String :=
  String.ofList ('"' :: (text.toList.flatMap escapeChar ++ ['"']))

/-- A line break and the indentation of a depth: two spaces for each level. -/
def newline (depth : Nat) : String := "\n" ++ String.ofList (List.replicate (2 * depth) ' ')

/-- Puts written members between brackets, one to a line; nothing stands between the brackets of
an empty list. -/
def enclose (opening closing : String) (depth : Nat) (members : List String) : String :=
  if members.isEmpty then opening ++ closing
  else
    opening ++ ",".intercalate (members.map (newline (depth + 1) ++ ·)) ++ newline depth ++ closing

mutual

/-- A value written over several lines, at a depth of indentation. -/
def pretty (depth : Nat) : Json → String
  | null => "null"
  | bool b => if b then "true" else "false"
  | number lexeme => lexeme
  | string text => quoted (text.getD "")
  | array items => enclose "[" "]" depth (prettyItems (depth + 1) items)
  | object members => enclose "\x7b" "\x7d" depth (prettyMembers (depth + 1) members)

/-- The items of an array. -/
def prettyItems (depth : Nat) : List Json → List String
  | [] => []
  | v :: vs => pretty depth v :: prettyItems depth vs

/-- The members of an object. -/
def prettyMembers (depth : Nat) : List (Option String × Json) → List String
  | [] => []
  | (name, v) :: ms =>
    (quoted (name.getD "") ++ ": " ++ pretty depth v) :: prettyMembers depth ms

end

end Json

end Mlog
