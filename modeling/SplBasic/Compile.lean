import SplBasic.Diagnostic
import SplBasic.Listing.Lower
import SplBasic.ParseTree
import SplBasic.Program.Parser
import SplBasic.Scope.Resolve
import SplBasic.Token.Scan
import SplBasic.Typing.Check

/-!
# Compiling

`compile` reads a text, parses it, resolves names, checks types and lowers the result to BASIC. The
first stage that finds something wrong ends it. Lexing and parsing stop at one error; the two
analyses report all problems they find.
-/

namespace SplBasic

/-- Why a program is not compiled. -/
inductive CompileError
  | lex (error : LexError)
  | parse (error : ParseError)
  | scope (diagnostics : List Diagnostic)
  | type (diagnostics : List Diagnostic)
  deriving DecidableEq, Repr

namespace CompileError

/-- The text of the error; the diagnostics of an analysis are only counted. -/
def render : CompileError → String
  | lex error => error.render
  | parse error => error.render
  | scope diagnostics =>
    "scope analysis failed with " ++ toString diagnostics.length ++ " error(s)"
  | type diagnostics => "type checking failed with " ++ toString diagnostics.length ++ " error(s)"

def diagnostics : CompileError → List Diagnostic
  | lex _ => []
  | parse _ => []
  | scope diagnostics => diagnostics
  | type diagnostics => diagnostics

end CompileError

/-- What compiling yields: the renamed and tagged program, its scope tree and the BASIC text. -/
structure Compilation where
  program : Program
  scopes : ScopeTree
  basic : String
  deriving DecidableEq, Repr

namespace Resolution

/-- The problems of a resolution, ready to be shown. -/
def diagnostics (r : Resolution) : List Diagnostic :=
  r.problems.map fun p => .ofProblem r.program.file r.program.source ⟨.scope p.cause, p.pos⟩

end Resolution

namespace Typing

def diagnostics (t : Typing) : List Diagnostic :=
  t.problems.map fun p => .ofProblem t.program.file t.program.source ⟨.type p.cause, p.pos⟩

end Typing

def compileProgram (p : Program) : Except CompileError Compilation :=
  let resolution := resolve p
  if resolution.problems.isEmpty then
    let typing := typecheck resolution.scopes resolution.program
    if typing.ok then .ok ⟨typing.program, resolution.scopes, typing.program.basic⟩
    else .error (.type typing.diagnostics)
  else .error (.scope resolution.diagnostics)

/-- Compiles tokens, wherever they come from. -/
def compileTokens (tokens : List Token) : Except CompileError Compilation := do
  compileProgram (← (parse tokens).mapError .parse)

/-- Compiles a text. The file name is used in messages only. -/
def compile (text file : String) : Except CompileError Compilation := do
  compileTokens (← (tokenize text file).mapError .lex)

end SplBasic
