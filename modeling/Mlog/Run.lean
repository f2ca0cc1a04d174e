import Mlog.Command
import Mlog.Compile.Unit
import Mlog.FileTree
import Mlog.Settings.File

/-!
# Running a command

What the program does with its command, written once over any system of files: the files of a
machine, or a tree of files that is a value.  A unit is compiled in this order: the settings are
loaded and the definitions of the command line added to them, the source is read, and only when it
has been compiled is anything written.
-/
set_option autoImplicit false

namespace Mlog

/-- The operations on files that the program needs. -/
structure FileSystem (m : Type → Type) where
  has : String → m Bool
  read : String → m (Except FileError String)
  write : String → String → m (Except FileError Unit)
  makeDirectories : String → m (Except FileError Unit)

/-- Why a command failed. -/
inductive RunError where
  | file (error : FileError)
  | malformedSettings
  | define (error : DefineError)
  | compile (error : CompileError)
  deriving DecidableEq, Repr

/-- The report for a failed command. -/
def RunError.message : RunError → String
  | file error => "IOError: " ++ error.message
  | malformedSettings => "ConfigError: the settings file is malformed"
  | define error => error.message
  | compile error => error.text

/-- What a run leaves behind besides files. -/
structure Report where
  exitCode : Nat
  stdout : String := ""
  stderr : String := ""
  deriving DecidableEq, Repr

namespace Report

/-- A run that was successful. -/
def success (line warnings : String) : Report := ⟨0, line ++ "\n", warnings⟩

/-- A run that failed. -/
def failure (message : String) : Report := ⟨1, "", message ++ "\n"⟩

/-- A run whose arguments make no command. -/
def usage : Report :=
  ⟨2, "", "Usage: mlog [-v] compile|check INPUT [OPTIONS] | config init|show [PATH]\n"⟩

end Report

namespace Run

variable {m : Type → Type} [Monad m]

/-- Loads settings; where there is no file they are the defaults. -/
def loadSettings (fs : FileSystem m) (path : String) : m (Except RunError Settings) := do
  if ← fs.has path then
    match ← fs.read path with
    | .error e => return .error (.file e)
    | .ok text =>
      match Settings.parse? text with
      | some s => return .ok s
      | none => return .error .malformedSettings
  else return .ok {}

/-- Settings with the definitions and switches of the command line. -/
def adjust (unit : UnitRequest) (s : Settings) : Except RunError Settings :=
  match unit.defines.foldlM Settings.define s with
  | .error e => .error (.define e)
  | .ok s =>
    .ok { s with
      options := { s.options with
        strict := s.options.strict || unit.strict
        worldProcessor := s.options.worldProcessor || unit.world
        includeSource := s.options.includeSource || unit.includeSource } }

/-- The settings of a unit. -/
def unitSettings (fs : FileSystem m) (unit : UnitRequest) : m (Except RunError Settings) := do
  let path := unit.config.getD (Path.settingsFor unit.input)
  return (← loadSettings fs path).bind (adjust unit)

/-- Compiles a unit: the settings it was compiled under, and the output. -/
def compileUnit (fs : FileSystem m) (unit : UnitRequest) :
    m (Except RunError (Settings × Compile.Output)) := do
  match ← unitSettings fs unit with
  | .error e => return .error e
  | .ok settings =>
    match ← fs.read unit.input with
    | .error e => return .error (.file e)
    | .ok source =>
      match Compile.unit settings unit.input source {} with
      | .error e => return .error (.compile e)
      | .ok out => return .ok (settings, out)

/-- The warnings of a unit, and how many there are. -/
def warningsText (diagnostics : List Diagnostic) : String :=
  String.join (diagnostics.map (·.text ++ "\n")) ++
    if diagnostics.isEmpty then "" else toString diagnostics.length ++ " warning(s)\n"

/-- Compiles a unit and writes the result. -/
def compileCommand (fs : FileSystem m) (unit : UnitRequest) (output : Option String) :
    m Report := do
  match ← compileUnit fs unit with
  | .error e => return .failure e.message
  | .ok (settings, out) =>
    let warnings := warningsText out.diagnostics
    let path := output.getD (Path.withExtension unit.input "mlog")
    match ← fs.write path (Compile.render settings.options out.statements) with
    | .error e => return ⟨1, "", warnings ++ e.message ++ "\n"⟩
    | .ok () =>
      return .success ("Compiled " ++ unit.input ++ " to " ++ path ++ " (" ++
        toString out.statements.length ++ " instructions)") warnings

/-- Compiles a unit and writes nothing. -/
def checkCommand (fs : FileSystem m) (unit : UnitRequest) : m Report := do
  match ← compileUnit fs unit with
  | .error e => return .failure e.message
  | .ok (_, out) =>
    return .success (unit.input ++ ": " ++ toString out.diagnostics.length ++ " diagnostic(s)")
      (warningsText out.diagnostics)

/-- Writes the default settings to a path, with the directories on the way to it. -/
def saveDefaults (fs : FileSystem m) (path : String) : m (Except FileError Unit) := do
  match ← fs.makeDirectories ((Path.parent? path).getD "") with
  | .error e => return .error e
  | .ok () => fs.write path (Settings.text {})

/-- Starts a settings file, unless there is one. -/
def initCommand (fs : FileSystem m) (path : String) : m Report := do
  if ← fs.has path then return .success ("Settings file already exists at: " ++ path) ""
  else match ← saveDefaults fs path with
    | .error e => return .failure (RunError.file e).message
    | .ok () => return .success ("Initialized settings file at: " ++ path) ""

/-- Shows the settings of a file. -/
def showCommand (fs : FileSystem m) (path : String) : m Report := do
  match ← loadSettings fs path with
  | .error e => return .failure e.message
  | .ok s => return .success s.text ""

/-- Runs a command. -/
def command (fs : FileSystem m) : Command → m Report
  | .compile unit output => compileCommand fs unit output
  | .check unit => checkCommand fs unit
  | .initSettings path => initCommand fs path
  | .showSettings path => showCommand fs path

/-- Runs the program with its arguments. -/
def program (fs : FileSystem m) (args : List String) : m Report :=
  match Command.parse? args with
  | some c => command fs c
  | none => pure .usage

end Run

/-- The operations on a tree of files. -/
def FileTree.system : FileSystem (StateM FileTree) where
  has path := do return (← get).has path
  read path := do return (← get).read path
  write path text := do
    match (← get).write path text with
    | .error e => return .error e
    | .ok tree =>
      set tree
      return .ok ()
  makeDirectories path := modifyGet fun tree =>
    let (tree, result) := makeDirectories (path.length + 1) tree path
    (result, tree)

/-- Runs the program on a tree of files: the report, and the tree afterwards. -/
def FileTree.run (tree : FileTree) (args : List String) : Report × FileTree :=
  (Run.program FileTree.system args).run tree

end Mlog
