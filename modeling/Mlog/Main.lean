import Mlog.Run

/-!
# The program

Runs the command line on the files of the machine.
-/
set_option autoImplicit false

namespace Mlog

/-- An error of the machine as an error of the program. -/
def FileError.ofSystem : IO.Error → FileError
  | .noFileOrDirectory .. => .notFound
  | .alreadyExists .. => .occupied
  | .inappropriateType _ code _ => if code == 20 then .notDirectory else .isDirectory
  | .invalidArgument _ code details => if code == 36 then .nameTooLong else .other details
  | e => .other (toString e)

/-- What an action gives, or the error it failed with. -/
def attempt {α : Type} (action : IO α) : IO (Except FileError α) := do
  try
    return .ok (← action)
  catch e =>
    return .error (.ofSystem e)

/-- The files of the machine. -/
def machineFiles : FileSystem IO where
  has path := do
    let full := (← IO.currentDir) / path
    full.pathExists
  read path := do
    match ← attempt (IO.FS.readBinFile path) with
    | .error e => return .error e
    | .ok bytes =>
      match String.fromUTF8? bytes with
      | some text => return .ok text
      | none => return .error .notText
  write path text := attempt (IO.FS.writeFile path text)
  makeDirectories path := do
    if path.isEmpty then return .ok () else attempt (IO.FS.createDirAll path)

end Mlog

/-- Runs the program. -/
def main (args : List String) : IO UInt32 := do
  let report ← Mlog.Run.program Mlog.machineFiles args
  IO.eprint report.stderr
  IO.print report.stdout
  return UInt32.ofNat report.exitCode
