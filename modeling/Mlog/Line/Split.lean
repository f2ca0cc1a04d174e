import Mlog.Line.Comment

/-!
# Statements and tokens of a line

A cleaned line holds statements divided by `;`, and a statement holds tokens divided by spaces.
Neither separator counts inside a string literal, and a literal keeps its quotes: `print "a b"` has
two tokens.  Both divisions are the one split `pieces` at a different separator.

A quote opens or closes a literal unless a backslash escapes it, inside literals and outside alike.
-/
set_option autoImplicit false

namespace Mlog.Line

/-- A string literal that the line does not close; its opening quote stands at `column`, counted
in characters from one. -/
structure UnclosedString where
  column : Nat
  deriving DecidableEq, Repr

/-- The report for an unclosed string. -/
def UnclosedString.message (e : UnclosedString) : String :=
  "LexingError: Unterminated string literal (column " ++ toString e.column ++ ")"

/-- Puts a character in front of the first piece. -/
def consFirst (c : Char) : List (List Char) → List (List Char)
  | [] => [[c]]
  | piece :: rest => (c :: piece) :: rest

/-- The pieces of a text between the separators outside its strings, empty ones included. -/
def pieces (sep : Char) : (inString escaped : Bool) → List Char → List (List Char)
  | _, _, [] => [[]]
  | inString, escaped, c :: cs =>
    if c == '"' && !escaped then
      consFirst c (pieces sep (!inString) false cs)
    else if c == sep && !inString then
      [] :: pieces sep false (escapesNext escaped c) cs
    else
      consFirst c (pieces sep inString (escapesNext escaped c) cs)

/-- The column of the quote that opens a string still open at the end of the text.  `start` is the
column of the string that is open so far, and `column` that of the next character. -/
def openString : (start : Option Nat) → (escaped : Bool) → (column : Nat) → List Char → Option Nat
  | start, _, _, [] => start
  | start, escaped, column, c :: cs =>
    if c == '"' && !escaped then
      openString (if start.isSome then none else some column) false (column + 1) cs
    else
      openString start (escapesNext escaped c) (column + 1) cs

/-- The non-empty pieces of a text between the separators outside its strings. -/
def split (sep : Char) (text : List Char) : Except UnclosedString (List (List Char)) :=
  match openString none false 1 text with
  | some column => .error ⟨column⟩
  | none => .ok ((pieces sep false false text).filter (!·.isEmpty))

/-- The tokens of a statement. -/
def tokens (text : String) : Except UnclosedString (List String) :=
  (split ' ' text.toList).map (·.map String.ofList)

/-- The statements of a cleaned line, each without the blanks around it. -/
def statements (line : String) : Except UnclosedString (List String) :=
  (split ';' line.toList).map fun parts =>
    ((parts.map Text.trimChars).filter (!·.isEmpty)).map String.ofList

end Mlog.Line
