import SplBasic.CommandLine.Arguments
import SplBasic.CommandLine.FileSystem
import SplBasic.Compile
import SplBasic.Scope.Table

/-!
# Running a command line

* `Options.produce` : the text to write out for the contents of the input file,
* `runWith` : reading, compiling and writing, whatever the files are,
* `run` : the same in a file system of the model,
* `runArgumentsWith`, `runArguments` : both from the arguments on.

A failing command writes nothing but its messages.
-/

namespace SplBasic.CommandLine

/-- Why a command fails. -/
inductive RunError
  | read (path : String) (fault : FileFault)
  | write (path : String) (fault : FileFault)
  | compile (error : CompileError)
  deriving DecidableEq, Repr

namespace RunError

def render : RunError → String
  | read path fault => "cannot read '" ++ path ++ "': " ++ fault.reason
  | write path fault => "cannot write '" ++ path ++ "': " ++ fault.reason
  | compile error => error.render

/-- The diagnostics that come before the text of the error. -/
def diagnostics : RunError → List Diagnostic
  | read _ _ => []
  | write _ _ => []
  | compile error => error.diagnostics

def messages (e : RunError) : String :=
  String.join (e.diagnostics.map fun d => d.render ++ "\n") ++ "error: " ++ e.render ++ "\n"

end RunError

/-- What a command leaves to see, apart from files. -/
structure Report where
  exitCode : Nat
  output : String
  messages : String
  deriving DecidableEq, Repr

namespace Report

def success (output : String) : Report :=
  ⟨0, output, ""⟩

def failure (e : RunError) : Report :=
  ⟨1, "", e.messages⟩

end Report

namespace Emit

def select : Emit → Compilation → String
  | basic, c => c.basic
  | tree, c => c.program.parseTree.render
  | symbols, c => c.scopes.table

end Emit

namespace Options

/-- The text to write out, given what reading the input file yields. -/
def produce (o : Options) (contents : Except FileFault String) : Except RunError String := do
  let text ← contents.mapError (.read o.input)
  let compilation ← (SplBasic.compile text o.input).mapError .compile
  return o.emit.select compilation

end Options

/-- How a command gets at files: the text of the file at a path, and a new text for it. -/
structure FileAccess (m : Type → Type) where
  read (path : String) : m (Except FileFault String)
  write (path contents : String) : m (Except FileFault Unit)

section

variable {m : Type → Type} [Monad m] (files : FileAccess m)

/-- Prints the text, or writes it to the output file, or reports why there is none. -/
def deliver (o : Options) : Except RunError String → m Report
  | .error e => return .failure e
  | .ok text =>
    match o.output with
    | none => return .success text
    | some path => do
      match ← files.write path text with
      | .error fault => return .failure (.write path fault)
      | .ok () => return .success ""

/-- Reads, compiles and writes. -/
def runWith (o : Options) : m Report := do
  deliver files o (o.produce (← files.read o.input))

end

namespace FileSystem

/-- The files of the model. A file system changes only when a file is written. -/
def access : FileAccess (StateM FileSystem) where
  read path fs := (fs.read path, fs)
  write path contents fs :=
    match fs.write path contents with
    | .error fault => (.error fault, fs)
    | .ok after => (.ok (), after)

end FileSystem

def run (o : Options) (fs : FileSystem) : Report × FileSystem :=
  (runWith FileSystem.access o).run fs

def version : String :=
  "splc 0.1.0\n"

/-- The text that explains the command line. Its wording is this library's own, as is that of
`UsageError.message`: what is fixed is the exit code and where the text goes. -/
def help : String :=
  "Compile SPL programs to line-numbered BASIC\n\n"
    ++ "Usage: splc [OPTIONS] <INPUT>\n\n"
    ++ "Arguments:\n"
    ++ "  <INPUT>  SPL source file\n\n"
    ++ "Options:\n"
    ++ "  -o, --output <OUTPUT>  Write output here instead of stdout\n"
    ++ "      --emit <EMIT>      What to print on success [default: basic] "
    ++ "[possible values: basic, tree, symbols]\n"
    ++ "  -v, --verbose...       Enable verbose logging (use multiple times for increased "
    ++ "verbosity)\n"
    ++ "  -q, --quiet            Suppress non-error output\n"
    ++ "  -h, --help             Print help\n"
    ++ "  -V, --version          Print version\n"

namespace Stop

def report : Stop → Report
  | usage error => ⟨2, "", "error: " ++ error.message ++ "\n"⟩
  | version => .success CommandLine.version
  | help => .success CommandLine.help

end Stop

def runArgumentsWith {m : Type → Type} [Monad m] (files : FileAccess m)
    (arguments : List String) : m Report :=
  match parseArguments arguments with
  | .error stop => return stop.report
  | .ok options => runWith files options

def runArguments (arguments : List String) (fs : FileSystem) : Report × FileSystem :=
  (runArgumentsWith FileSystem.access arguments).run fs

end SplBasic.CommandLine
