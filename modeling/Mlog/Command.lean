import Mlog.Path

/-!
# The command line

The arguments of the program as a command.  Options may stand anywhere among the operands: a long
one as `--name` or `--name=value`, a short one as `-n`, `-nvalue`, `-n=value`, or together with
others behind one hyphen.  A value that stands by itself does not begin with a hyphen, unless it is
one.  `--` ends the options.
-/
set_option autoImplicit false

namespace Mlog

/-! ## Options and operands -/

/-- How an option is given. -/
inductive OptionForm where
  /-- without a value, once -/
  | flag
  /-- with a value, once -/
  | single
  /-- with a value, any number of times -/
  | repeated
  deriving DecidableEq, Repr

/-- An option of a command. -/
structure OptionSpec where
  key : String
  short : Option Char
  long : Option String
  form : OptionForm
  deriving DecidableEq, Repr

/-- What an argument gives: the value of an option, empty for a flag, or an operand. -/
inductive Given where
  | option (key value : String)
  | operand (text : String)
  deriving DecidableEq, Repr

namespace Arguments

/-- Whether an argument is an option rather than a value; a lone hyphen is a value. -/
def isOption (arg : String) : Bool :=
  match arg.toList with
  | '-' :: _ :: _ => true
  | _ => false

/-- What is left to read of an option once its argument is over. -/
inductive Pending where
  | nothing
  | valueOf (key : String)
  deriving DecidableEq, Repr

/-- Reads short options behind one hyphen.  The first that takes a value takes the rest, without a
leading `=`; if there is no rest, its value is the next argument. -/
def shortOptions (specs : List OptionSpec) : List Char → Option (List Given × Pending)
  | [] => some ([], .nothing)
  | c :: cs => do
    let spec ← specs.find? (·.short == some c)
    match spec.form with
    | .flag =>
      let (given, pending) ← shortOptions specs cs
      return (.option spec.key "" :: given, pending)
    | _ =>
      match cs with
      | [] => return ([], .valueOf spec.key)
      | '=' :: value => return ([.option spec.key (String.ofList value)], .nothing)
      | value => return ([.option spec.key (String.ofList value)], .nothing)

/-- Reads a long option behind its two hyphens. -/
def longOption (specs : List OptionSpec) (cs : List Char) : Option (List Given × Pending) := do
  let (name, value) := match Text.cutFirst '=' cs with
    | some (name, value) => (name, some (String.ofList value))
    | none => (cs, none)
  let spec ← specs.find? (·.long == some (String.ofList name))
  match spec.form, value with
  | .flag, none => return ([.option spec.key ""], .nothing)
  | .flag, some _ => none
  | _, some value => return ([.option spec.key value], .nothing)
  | _, none => return ([], .valueOf spec.key)

/-- Reads one argument that is an option. -/
def optionArgument (specs : List OptionSpec) (arg : String) : Option (List Given × Pending) :=
  match arg.toList with
  | '-' :: '-' :: name => longOption specs name
  | '-' :: cluster => shortOptions specs cluster
  | _ => none

/-- Reads arguments in order.  There is no reading if an option is unknown or lacks its value. -/
def scan (specs : List OptionSpec) : Pending → List String → Option (List Given)
  | .nothing, [] => some []
  | .valueOf _, [] => none
  | .valueOf key, arg :: rest =>
    if isOption arg then none else (scan specs .nothing rest).map (.option key arg :: ·)
  | .nothing, arg :: rest =>
    if arg == "--" then some (rest.map .operand)
    else if isOption arg then do
      let (given, pending) ← optionArgument specs arg
      let others ← scan specs pending rest
      return given ++ others
    else (scan specs .nothing rest).map (.operand arg :: ·)

/-- The values given for an option. -/
def valuesOf (given : List Given) (key : String) : List String :=
  given.filterMap fun
    | .option k value => if k == key then some value else none
    | .operand _ => none

/-- The operands. -/
def operandsOf (given : List Given) : List String :=
  given.filterMap fun
    | .option _ _ => none
    | .operand text => some text

/-- Reads the arguments of a command: no option but a repeated one is given twice. -/
def read (specs : List OptionSpec) (args : List String) : Option (List Given) := do
  let given ← scan specs .nothing args
  if specs.all fun s => s.form == .repeated || (valuesOf given s.key).length ≤ 1 then
    return given
  else none

end Arguments

/-! ## Commands -/

/-- A unit to compile and how. -/
structure UnitRequest where
  input : String
  /-- the settings file, if it is not the one next to the input -/
  config : Option String := none
  strict : Bool := false
  world : Bool := false
  includeSource : Bool := false
  /-- definitions of constants, as `NAME=VALUE` -/
  defines : List String := []
  deriving DecidableEq, Repr

/-- What the program is asked to do. -/
inductive Command where
  | compile (unit : UnitRequest) (output : Option String)
  | check (unit : UnitRequest)
  | initSettings (path : String)
  | showSettings (path : String)
  deriving DecidableEq, Repr

namespace Command

open Arguments

/-- Asks for more output; every command takes it. -/
def verboseOption : OptionSpec := ⟨"verbose", some 'v', some "verbose", .flag⟩

/-- The options of a unit. -/
def unitOptions : List OptionSpec := [
  ⟨"config", none, some "config", .single⟩,
  ⟨"strict", none, some "strict", .flag⟩,
  ⟨"world", none, some "world", .flag⟩,
  ⟨"includeSource", none, some "include-source", .flag⟩,
  ⟨"define", some 'D', none, .repeated⟩,
  verboseOption]

/-- The option that names the output. -/
def outputOption : OptionSpec := ⟨"output", some 'o', some "output", .single⟩

/-- A path given for an option, which is not empty. -/
def pathOf (given : List Given) (key : String) : Option (Option String) :=
  match (valuesOf given key).head? with
  | none => some none
  | some path => if path.isEmpty then none else some (some path)

/-- The unit that arguments describe: one input, which is not empty. -/
def unitOf (given : List Given) : Option UnitRequest := do
  match operandsOf given with
  | [input] =>
    if input.isEmpty then none
    else return {
      input
      config := ← pathOf given "config"
      strict := !(valuesOf given "strict").isEmpty
      world := !(valuesOf given "world").isEmpty
      includeSource := !(valuesOf given "includeSource").isEmpty
      defines := valuesOf given "define" }
  | _ => none

/-- The path of a settings command: one, which is not empty, or none for the usual name. -/
def settingsPath (args : List String) : Option String := do
  let given ← read [verboseOption] args
  match operandsOf given with
  | [] => return Path.settingsName
  | [path] => if path.isEmpty then none else return path
  | _ => none

/-- The arguments from the first on that is no option.  Only the common option may stand before the
name of a command, and only once. -/
def fromName : (seen : Bool) → List String → Option (List String)
  | _, [] => none
  | seen, arg :: rest =>
    if arg == "-v" || arg == "--verbose" then if seen then none else fromName true rest
    else if isOption arg then none
    else some (arg :: rest)

/-- The command about settings that arguments describe. -/
def parseSettings (args : List String) : Option Command := do
  match ← fromName false args with
  | "init" :: rest => return initSettings (← settingsPath rest)
  | "show" :: rest => return showSettings (← settingsPath rest)
  | _ => none

/-- The command that arguments describe. -/
def parse? (args : List String) : Option Command := do
  match ← fromName false args with
  | "compile" :: rest =>
    let given ← read (outputOption :: unitOptions) rest
    return compile (← unitOf given) (← pathOf given "output")
  | "check" :: rest =>
    let given ← read unitOptions rest
    return check (← unitOf given)
  | "config" :: rest => parseSettings rest
  | _ => none

end Command

end Mlog
