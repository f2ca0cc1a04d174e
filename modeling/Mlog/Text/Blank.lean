/-!
# Blank characters

What counts as blank at the edges of a line, between the words of a signature and around a name:
the characters with Unicode's `White_Space` property, and no others.  The no-break space U+00A0,
the next-line mark U+0085 and the ideographic space U+3000 are blank; the zero-width space U+200B
and the byte order mark U+FEFF are not.

Splitting and trimming work on lists of characters, so that every later proof is an induction on
the text itself.
-/
set_option autoImplicit false

namespace Mlog.Text

/-- Whether a character has the `White_Space` property. -/
def isBlank (c : Char) : Bool :=
  let n := c.toNat
  (0x09 ≤ n && n ≤ 0x0D) || n == 0x20 || n == 0x85 || n == 0xA0 || n == 0x1680 ||
    (0x2000 ≤ n && n ≤ 0x200A) || n == 0x2028 || n == 0x2029 || n == 0x202F || n == 0x205F ||
    n == 0x3000

/-- Every character that core calls whitespace is blank. -/
theorem isBlank_of_isWhitespace {c : Char} (h : c.isWhitespace = true) : isBlank c = true := by
  simp only [Char.isWhitespace, Bool.or_eq_true, decide_eq_true_eq] at h
  rcases h with ((h | h) | h) | h <;> subst h <;> decide

/-- The text without the blanks at its two ends. -/
def trimChars (cs : List Char) : List Char :=
  ((cs.dropWhile isBlank).reverse.dropWhile isBlank).reverse

/-- `trimChars` for strings. -/
def trim (s : String) : String := String.ofList (trimChars s.toList)

/-! ## Splitting -/

/-- The pieces between the characters that `sep` picks out.  There is always one piece more than
there are separators, so two neighbouring separators give an empty piece. -/
def splitOnP (sep : Char → Bool) : List Char → List (List Char)
  | [] => [[]]
  | c :: cs =>
    if sep c then [] :: splitOnP sep cs
    else match splitOnP sep cs with
      | [] => [[c]]
      | piece :: rest => (c :: piece) :: rest

/-- The words of a text: its maximal blank-free runs. -/
def words (s : String) : List String :=
  ((splitOnP isBlank s.toList).filter (!·.isEmpty)).map String.ofList

/-- The entries of a comma-separated list, each trimmed; empty entries do not count. -/
def entries (s : String) : List String :=
  ((splitOnP (· == ',') s.toList).map trimChars).filter (!·.isEmpty) |>.map String.ofList

/-- The text before and after the first `sep`. -/
def cutFirst (sep : Char) : List Char → Option (List Char × List Char)
  | [] => none
  | c :: cs =>
    if c == sep then some ([], cs)
    else (cutFirst sep cs).map fun (before, after) => (c :: before, after)

/-- The text before and after the last `sep`. -/
def cutLast (sep : Char) : List Char → Option (List Char × List Char)
  | [] => none
  | c :: cs =>
    match cutLast sep cs with
    | some (before, after) => some (c :: before, after)
    | none => if c == sep then some ([], cs) else none

/-! ## Lines -/

/-- The lines of a source text.  A line ends at a line feed, which takes one carriage return before
it along; the last line needs no line feed, and then keeps its carriage return. -/
def lines : List Char → List (List Char)
  | [] => []
  | '\n' :: cs => [] :: lines cs
  | '\r' :: '\n' :: cs => [] :: lines cs
  | c :: cs =>
    match lines cs with
    | [] => [[c]]
    | line :: rest => (c :: line) :: rest

end Mlog.Text
