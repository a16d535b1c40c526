import SplBasic.CommandLine.Run

/-!
# The command

Runs `SplBasic.CommandLine.runArgumentsWith` on the files of the system, and prints its report.
-/

namespace SplBasic.CommandLine

/-- The number of a system error, which some file operations give negated. -/
def errorNumber (code : UInt32) : Nat :=
  (min code (-code)).toNat

/-- The fault behind a failed file operation. -/
def faultOfError (e : IO.Error) : FileFault :=
  match e with
  | .noFileOrDirectory .. => .notFound
  | .permissionDenied .. => .denied
  | .inappropriateType _ code _ => if errorNumber code = 21 then .isDirectory else .notDirectory
  | .invalidArgument _ code _ => if errorNumber code = 36 then .nameTooLong else .other (toString e)
  | _ => .other (toString e)

def readText (path : String) : IO (Except FileFault String) := do
  try
    match String.fromUTF8? (← IO.FS.readBinFile path) with
    | some text => return .ok text
    | none => return .error .invalidText
  catch e => return .error (faultOfError e)

def writeText (path contents : String) : IO (Except FileFault Unit) := do
  try
    IO.FS.writeFile path contents
    return .ok ()
  catch e => return .error (faultOfError e)

def systemFiles : FileAccess IO :=
  ⟨readText, writeText⟩

/-- Prints a report and gives its exit code. -/
def finishWith (report : Report) : IO UInt32 := do
  IO.print report.output
  IO.eprint report.messages
  return report.exitCode.toUInt32

/-- Does what the arguments ask for. -/
def execute (arguments : List String) : IO UInt32 := do
  finishWith (← runArgumentsWith systemFiles arguments)

end SplBasic.CommandLine

def main (arguments : List String) : IO UInt32 :=
  SplBasic.CommandLine.execute arguments
