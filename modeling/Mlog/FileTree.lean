import Mlog.Path

/-!
# A tree of files

The files that the program can see, as a value.  Running the program on a tree says exactly what it
reads and changes.

A place in the tree is the list of names on the way to it from the working directory.  The way may
lead up, as a row of `..` at the start, or begin at the root, written `/`; these are directories,
and nothing else is known about the world outside.

A path is followed in two steps.  Every part but the last has to name a directory (`resolve`); what
the last one names is looked up only afterwards (`lookup`), because reading, writing and making a
directory differ in what they ask of it.
-/
set_option autoImplicit false

namespace Mlog

/-- Why a file could not be read or written. -/
inductive FileError where
  | notFound
  | occupied
  | notDirectory
  | isDirectory
  | nameTooLong
  | notText
  /-- anything else, in the words of the system -/
  | other (message : String)
  deriving DecidableEq, Repr

/-- The words of the system for an error. -/
def FileError.message : FileError → String
  | notFound => "No such file or directory (os error 2)"
  | occupied => "File exists (os error 17)"
  | notDirectory => "Not a directory (os error 20)"
  | isDirectory => "Is a directory (os error 21)"
  | nameTooLong => "File name too long (os error 36)"
  | notText => "stream did not contain valid UTF-8"
  | other message => message

/-- The content of a file. -/
inductive Content where
  | text (value : String)
  /-- bytes that are no text -/
  | binary
  deriving DecidableEq, Repr

/-- The way to a file or directory. -/
abbrev Place := List String

/-- Files with their places, and directories that hold no file yet. -/
structure FileTree where
  files : List (Place × Content) := []
  directories : List Place := []
  deriving DecidableEq, Repr

namespace FileTree

/-- The content of the file at a place. -/
def file? (tree : FileTree) (place : Place) : Option Content :=
  (tree.files.find? (·.1 == place)).map Prod.snd

/-- Whether a place is outside the working directory and known: above it, or the root. -/
def isOutside (place : Place) : Bool := place.all (· == "..") || place == ["/"]

/-- Whether there is a directory at a place: it is known, was made, or has a file inside. -/
def isDirectory (tree : FileTree) (place : Place) : Bool :=
  isOutside place || tree.directories.contains place ||
    tree.files.any fun (p, _) => place.isPrefixOf p && p != place

/-- The place above a directory. -/
def up (place : Place) : Place :=
  if place == ["/"] then place
  else if place.all (· == "..") then ".." :: place
  else place.dropLast

/-! ## Following a path -/

/-- The greatest number of bytes in a name. -/
def maxName : Nat := 255

/-- The greatest number of bytes in a path. -/
def maxPath : Nat := 4095

/-- What a name in a directory stands for. -/
inductive Node where
  | directory (place : Place)
  | file (place : Place) (content : Content)
  | missing (place : Place)
  deriving DecidableEq, Repr

/-- Looks a name up in a directory. -/
def lookup (tree : FileTree) (directory : Place) (name : String) : Except FileError Node :=
  if maxName < name.utf8ByteSize then .error .nameTooLong
  else
    let place := directory ++ [name]
    match tree.file? place with
    | some content => .ok (.file place content)
    | none => .ok (if tree.isDirectory place then .directory place else .missing place)

/-- The directory that a part of a path leads to from another. -/
def enter (tree : FileTree) (directory : Place) (part : String) : Except FileError Place :=
  if part.isEmpty || part == "." then .ok directory
  else if part == ".." then .ok (up directory)
  else match tree.lookup directory part with
    | .error e => .error e
    | .ok (.directory place) => .ok place
    | .ok (.file _ _) => .error .notDirectory
    | .ok (.missing _) => .error .notFound

/-- Where a path ends. -/
inductive Target where
  /-- at a directory, without naming it -/
  | directory (place : Place)
  /-- at a name in a directory; `slash` says whether a slash follows -/
  | name (directory : Place) (name : String) (slash : Bool)
  deriving DecidableEq, Repr

/-- The list without the empty texts at its end. -/
def dropEmpty (parts : List String) : List String :=
  (parts.reverse.dropWhile String.isEmpty).reverse

/-- Follows the parts of a path from a directory, up to the last. -/
def resolveParts (tree : FileTree) (start : Place) (parts : List String) :
    Except FileError Target := do
  let named := dropEmpty parts
  match named.getLast? with
  | none => return .directory start
  | some last =>
    let directory ← named.dropLast.foldlM tree.enter start
    if last == "." then return .directory directory
    else if last == ".." then return .directory (up directory)
    else return .name directory last (named.length < parts.length)

/-- Follows a path up to its last part. -/
def resolve (tree : FileTree) (path : String) : Except FileError Target :=
  if maxPath < path.utf8ByteSize then .error .nameTooLong
  else match path.toList with
    | [] => .error .notFound
    | '/' :: cs => tree.resolveParts ["/"] ((Path.parts cs).map String.ofList)
    | cs => tree.resolveParts [] ((Path.parts cs).map String.ofList)

/-- What a path leads to.  A slash at its end asks for a directory. -/
def find (tree : FileTree) (path : String) : Except FileError Node := do
  match ← tree.resolve path with
  | .directory place => return .directory place
  | .name directory name slash =>
    match ← tree.lookup directory name with
    | .file place content => if slash then throw .notDirectory else return .file place content
    | node => return node

/-! ## Operations -/

/-- Whether a path leads to a file or directory. -/
def has (tree : FileTree) (path : String) : Bool :=
  match tree.find path with
  | .ok (.directory _) | .ok (.file _ _) => true
  | _ => false

/-- The text of a file. -/
def read (tree : FileTree) (path : String) : Except FileError String :=
  match tree.find path with
  | .error e => .error e
  | .ok (.directory _) => .error .isDirectory
  | .ok (.missing _) => .error .notFound
  | .ok (.file _ (.text s)) => .ok s
  | .ok (.file _ .binary) => .error .notText

/-- The tree with a file at a place. -/
def put (tree : FileTree) (place : Place) (content : Content) : FileTree :=
  { tree with files := tree.files.filter (·.1 != place) ++ [(place, content)] }

/-- Writes a file, in place of one that is there.  A slash at the end of the path names a
directory, whatever is there, and is refused before the name is looked up.  The tree stays as it is
when that fails. -/
def write (tree : FileTree) (path text : String) : Except FileError FileTree := do
  match ← tree.resolve path with
  | .directory _ | .name _ _ true => throw .isDirectory
  | .name directory name false =>
    match ← tree.lookup directory name with
    | .directory _ => throw .isDirectory
    | .file place _ | .missing place => return tree.put place (.text text)

/-- Makes one directory. -/
def makeDirectory (tree : FileTree) (path : String) : Except FileError FileTree := do
  match ← tree.resolve path with
  | .directory _ => throw .occupied
  | .name directory name _ =>
    match ← tree.lookup directory name with
    | .directory _ | .file _ _ => throw .occupied
    | .missing place => return { tree with directories := place :: tree.directories }

/-- Whether a path leads to a directory. -/
def leadsToDirectory (tree : FileTree) (path : String) : Bool :=
  match tree.find path with
  | .ok (.directory _) => true
  | _ => false

/-- Makes a directory and those above it that are missing: the tree afterwards, and the error that
stopped it.  A path is at most as deep as it is long, which the fuel stands for. -/
def makeDirectories : (fuel : Nat) → FileTree → String → FileTree × Except FileError Unit
  | 0, tree, _ => (tree, .error .notFound)
  | fuel + 1, tree, path =>
    if path.isEmpty then (tree, .ok ())
    else match tree.makeDirectory path with
      | .ok tree => (tree, .ok ())
      | .error e =>
        if e != .notFound then
          (tree, if tree.leadsToDirectory path then .ok () else .error e)
        else match makeDirectories fuel tree ((Path.parent? path).getD "") with
          | (tree, .error e) => (tree, .error e)
          | (tree, .ok ()) =>
            match tree.makeDirectory path with
            | .ok tree => (tree, .ok ())
            | .error e => (tree, if tree.leadsToDirectory path then .ok () else .error e)

end FileTree

end Mlog
