import DecafBackend.Tool

/-! # The command

    Runs the tool on the files that the command line names. -/

namespace DecafBackend

/-- What is shown when help is asked for or the command line is invalid. -/
def usageText : String :=
  "usage: decaf-backend [--no-copy-prop] [--no-cse] [--no-dce] [--no-regalloc]\n"
    ++ "         [--palette REGS] [--emit-ir] [-o FILE] [-v] <input.json>\n"

/-- Why a file cannot be reached, in the words of the system. -/
def reasonOf : IO.Error → String
  | .noFileOrDirectory _ code details | .permissionDenied _ code details
  | .inappropriateType _ code details | .resourceExhausted _ code details
  | .invalidArgument _ code details => s!"{details} (os error {code})"
  | error => toString error

/-- The files of the system. -/
def systemFiles : Tool.Files IO where
  read path := do
    match ← (IO.FS.readBinFile path).toBaseIO with
    | .error error => return .error (reasonOf error)
    | .ok bytes =>
      match String.fromUTF8? bytes with
      | some text => return .ok text
      | none => return .error "stream did not contain valid UTF-8"
  write path text := do
    match ← (IO.FS.writeFile path text).toBaseIO with
    | .error error => return .error (reasonOf error)
    | .ok () => return .ok ()

/-- A failure as it is reported: in color, after the word for it. -/
def reportText (failure : Tool.Failure) : String :=
  "\x1b[1;31merror:\x1b[0m \x1b[1;37m" ++ failure.message ++ "\x1b[0m"

end DecafBackend

open DecafBackend in
/-- Runs the tool on the arguments of the command. -/
def main (arguments : List String) : IO UInt32 := do
  match CommandLine.parse true arguments with
  | .error .help =>
    IO.print usageText
    return 0
  | .error .usage =>
    IO.eprint usageText
    return 1
  | .ok invocation =>
    match ← Tool.run systemFiles invocation with
    | .ok output =>
      IO.print output
      return 0
    | .error failure =>
      IO.eprintln (reportText failure)
      return 1
