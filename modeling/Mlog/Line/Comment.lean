import Mlog.Text.Blank

/-!
# Commentary

A line may end in a comment (`#` or `//`) or hold comments between `/*` and `*/`.  Cleaning a line
removes them and the blanks at its ends, and copies string literals as they stand, so that
`print "#1"` keeps its operand.

A comment never reaches past the line it starts on: an unfinished `/*` swallows the rest of its
line and nothing more.
-/
set_option autoImplicit false

namespace Mlog.Line

/-- Whether the character after `c` is escaped, given whether `c` itself is: only a backslash that
is not escaped escapes what follows it.  Read along a text from its start, this says whether a
character stands after an odd run of backslashes. -/
def escapesNext (escaped : Bool) (c : Char) : Bool := c == '\\' && !escaped

/-- Where the reader of a line stands. -/
inductive Mode where
  /-- outside strings and comments -/
  | code
  /-- inside a string literal; `escaped` says whether the next character is -/
  | string (escaped : Bool)
  /-- after `#` or `//` -/
  | lineComment
  /-- after an open `/*` -/
  | blockComment
  deriving DecidableEq, Repr

/-- The text without its comments, read from a given mode.  A quote in code always opens a string;
in a string it closes it unless a backslash escapes it. -/
def strip : Mode → List Char → List Char
  | _, [] => []
  | .code, '#' :: cs => strip .lineComment cs
  | .code, '/' :: '/' :: cs => strip .lineComment cs
  | .code, '/' :: '*' :: cs => strip .blockComment cs
  | .code, '"' :: cs => '"' :: strip (.string false) cs
  | .code, c :: cs => c :: strip .code cs
  | .string escaped, c :: cs =>
    c :: strip (if c == '"' && !escaped then .code else .string (escapesNext escaped c)) cs
  | .lineComment, c :: cs => strip (if c == '\n' then .code else .lineComment) cs
  | .blockComment, '*' :: '/' :: cs => strip .code cs
  | .blockComment, _ :: cs => strip .blockComment cs

/-- A line without commentary and without the blanks around it. -/
def clean (line : String) : String :=
  String.ofList (Text.trimChars (strip .code line.toList))

end Mlog.Line
