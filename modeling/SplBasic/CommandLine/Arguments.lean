/-!
# Command-line arguments

Arguments are read strictly from left to right, and the first one that is wrong, or that asks for
the version or for help, ends the reading.

* an argument that starts with `--` is a long option, with its value behind `=` or in the next
  argument,
* one that starts with `-` is a run of short options; what follows `o` in it is the value of `o`,
* `--` alone ends the options, and everything else, `-` alone included, is the input path.
-/

namespace SplBasic.CommandLine

/-- What is written on success. -/
inductive Emit
  | basic | tree | symbols
  deriving DecidableEq, Repr

namespace Emit

def ofName? : String → Option Emit
  | "basic" => some basic
  | "tree" => some tree
  | "symbols" => some symbols
  | _ => none

end Emit

/-- A complete command line. -/
structure Options where
  input : String
  output : Option String
  emit : Emit
  verbosity : Nat
  quiet : Bool
  deriving DecidableEq, Repr

/-- The options that take a value. -/
inductive ValueOption
  | output | emit
  deriving DecidableEq, Repr

namespace ValueOption

/-- How an option is named in messages. -/
def label : ValueOption → String
  | output => "--output <OUTPUT>"
  | emit => "--emit <EMIT>"

end ValueOption

/-- What is wrong with a command line. -/
inductive UsageError
  | unexpectedArgument (argument : String)
  | missingValue (option : ValueOption)
  | invalidValue (option : ValueOption) (value : String)
  | unexpectedValue (option value : String)
  | repeatedOption (option : String)
  | missingInput
  deriving DecidableEq, Repr

namespace UsageError

/-- The wording of the error, which is this library's own. -/
def message : UsageError → String
  | unexpectedArgument argument => "unexpected argument '" ++ argument ++ "' found"
  | missingValue option => "a value is required for '" ++ option.label ++ "' but none was supplied"
  | invalidValue option value => "invalid value '" ++ value ++ "' for '" ++ option.label ++ "'"
  | unexpectedValue option value =>
    "unexpected value '" ++ value ++ "' for '" ++ option ++ "' found"
  | repeatedOption option => "the argument '" ++ option ++ "' cannot be used multiple times"
  | missingInput => "the following required arguments were not provided: <INPUT>"

end UsageError

/-- Why a command line does not lead to a compilation. -/
inductive Stop
  | usage (error : UsageError)
  | version
  | help
  deriving DecidableEq, Repr

/-- What has been given so far. -/
structure Given where
  input : Option String
  output : Option String
  emit : Option Emit
  verbosity : Nat
  quiet : Bool
  deriving DecidableEq, Repr

namespace Given

def none : Given :=
  ⟨.none, .none, .none, 0, false⟩

def setInput (given : Given) (path : String) : Except Stop Given :=
  if given.input.isSome then .error (.usage (.unexpectedArgument path))
  else if path = "" then .error (.usage .missingInput)
  else .ok { given with input := some path }

def setValue (given : Given) (option : ValueOption) (value : String) : Except Stop Given :=
  match option with
  | .output =>
    if given.output.isSome then .error (.usage (.repeatedOption option.label))
    else if value = "" then .error (.usage (.missingValue option))
    else .ok { given with output := some value }
  | .emit =>
    if given.emit.isSome then .error (.usage (.repeatedOption option.label))
    else
      match Emit.ofName? value with
      | some emit => .ok { given with emit := some emit }
      | .none => .error (.usage (.invalidValue option value))

/-- Counts one more request for log lines. -/
def addVerbose (given : Given) : Given :=
  { given with verbosity := given.verbosity + 1 }

/-- Takes the request for silence, which may be made only once. -/
def setQuiet (given : Given) : Except Stop Given :=
  if given.quiet then .error (.usage (.repeatedOption "--quiet"))
  else .ok { given with quiet := true }

end Given

/-- What the next argument can be. -/
inductive Mode
  | anything
  | valueOf (option : ValueOption)
  | inputOnly
  deriving DecidableEq, Repr

/-- A command line read in part. -/
structure Reading where
  mode : Mode
  given : Given
  deriving DecidableEq, Repr

namespace Reading

/-- Reads a run of short options. -/
def shortOptions (given : Given) : List Char → Except Stop Reading
  | [] => .ok ⟨.anything, given⟩
  | 'v' :: rest => shortOptions given.addVerbose rest
  | 'q' :: rest => do shortOptions (← given.setQuiet) rest
  | 'V' :: _ => .error .version
  | 'h' :: _ => .error .help
  | ['o'] => .ok ⟨.valueOf .output, given⟩
  | 'o' :: '=' :: value => return ⟨.anything, ← given.setValue .output (String.ofList value)⟩
  | 'o' :: value => return ⟨.anything, ← given.setValue .output (String.ofList value)⟩
  | c :: _ => .error (.usage (.unexpectedArgument ("-" ++ c.toString)))

def longValue (given : Given) (option : ValueOption) : Option String → Except Stop Reading
  | some value => return ⟨.anything, ← given.setValue option value⟩
  | none => .ok ⟨.valueOf option, given⟩

def longFlag (name : String) (effect : Except Stop Given) : Option String → Except Stop Reading
  | some value => .error (.usage (.unexpectedValue ("--" ++ name) value))
  | none => return ⟨.anything, ← effect⟩

def longOption (given : Given) (name : String) (value : Option String) : Except Stop Reading :=
  match name with
  | "output" => longValue given .output value
  | "emit" => longValue given .emit value
  | "verbose" => longFlag name (.ok given.addVerbose) value
  | "quiet" => longFlag name given.setQuiet value
  | "version" => longFlag name (.error .version) value
  | "help" => longFlag name (.error .help) value
  | _ => .error (.usage (.unexpectedArgument ("--" ++ name)))

/-- The name and the value of a long option, divided by the first `=`. -/
def splitLong (cs : List Char) : String × Option String :=
  let name := String.ofList (cs.takeWhile (· != '='))
  match cs.dropWhile (· != '=') with
  | [] => (name, none)
  | _ :: value => (name, some (String.ofList value))

def anyArgument (given : Given) (argument : String) : Except Stop Reading :=
  match argument.toList with
  | ['-', '-'] => .ok ⟨.inputOnly, given⟩
  | '-' :: '-' :: cs =>
    let (name, value) := splitLong cs
    longOption given name value
  | '-' :: c :: cs => shortOptions given (c :: cs)
  | _ => return ⟨.anything, ← given.setInput argument⟩

/-- Whether an argument is an option or ends the options, and so is no value. -/
def isOption (argument : String) : Bool :=
  match argument.toList with
  | '-' :: _ :: _ => true
  | _ => false

def next (reading : Reading) (argument : String) : Except Stop Reading :=
  match reading.mode with
  | .anything => anyArgument reading.given argument
  | .valueOf option =>
    if isOption argument then .error (.usage (.missingValue option))
    else return ⟨.anything, ← reading.given.setValue option argument⟩
  | .inputOnly => return ⟨.inputOnly, ← reading.given.setInput argument⟩

/-- The options that all arguments together give. -/
def finish (reading : Reading) : Except Stop Options :=
  match reading.mode, reading.given.input with
  | .valueOf option, _ => .error (.usage (.missingValue option))
  | _, none => .error (.usage .missingInput)
  | _, some input =>
    .ok ⟨input, reading.given.output, reading.given.emit.getD .basic, reading.given.verbosity,
      reading.given.quiet⟩

end Reading

def parseArguments (arguments : List String) : Except Stop Options := do
  (← arguments.foldlM Reading.next ⟨.anything, .none⟩).finish

end SplBasic.CommandLine
