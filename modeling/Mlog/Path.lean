import Mlog.Text.Blank

/-!
# Paths

Paths as texts, taken apart at slashes.  An empty part and a `.` say nothing, except for a `.` at
the very start, which is kept.
-/
set_option autoImplicit false

namespace Mlog.Path

/-- The parts of a path between its slashes. -/
def parts (path : List Char) : List (List Char) := Text.splitOnP (· == '/') path

/-- Parts put together again. -/
def ofParts (ps : List (List Char)) : List Char := List.intercalate ['/'] ps

/-- Whether a part says nothing. -/
def isIdle (part : List Char) : Bool := part.isEmpty || part == ['.']

/-- The list without the idle parts at its end. -/
def dropIdle (ps : List (List Char)) : List (List Char) := (ps.reverse.dropWhile isIdle).reverse

/-- The start of a path that no part belongs to, and what follows it: the root, a leading `.`, or
nothing. -/
def lead : List Char → List Char × List Char
  | '/' :: cs => (['/'], cs)
  | ['.'] => (['.'], [])
  | '.' :: '/' :: cs => (['.'], '/' :: cs)
  | cs => ([], cs)

/-- The directory of a path: the path without its last part.  The root and the empty path have
none, and that of a lone `.` is empty. -/
def parent? (path : String) : Option String :=
  let (start, body) := lead path.toList
  match dropIdle (parts body) with
  | [] => if start == ['.'] then some "" else none
  | ps => some (String.ofList (start ++ ofParts (dropIdle ps.dropLast)))

/-- A name inside a directory. -/
def join (directory name : String) : String :=
  if directory.isEmpty || directory.toList.getLast? == some '/' then directory ++ name
  else directory ++ "/" ++ name

/-- The name of the settings file. -/
def settingsName : String := "config.json"

/-- The settings file that applies to a source file: the one next to it. -/
def settingsFor (input : String) : String := join ((parent? input).getD ".") settingsName

/-- A file name with another extension.  A dot at the start of the name begins no extension. -/
def renameExtension (name extension : List Char) : List Char :=
  match Text.cutLast '.' name with
  | some (stem, _) => (if stem.isEmpty then name else stem) ++ '.' :: extension
  | none => name ++ '.' :: extension

/-- A path with another extension. -/
def withExtension (path extension : String) : String :=
  match Text.cutLast '/' path.toList with
  | some (directory, name) =>
    String.ofList (directory ++ '/' :: renameExtension name extension.toList)
  | none => String.ofList (renameExtension path.toList extension.toList)

end Mlog.Path
