import SplBasic.Scope.Error
import SplBasic.Source
import SplBasic.Text.Line
import SplBasic.Typing.Error

/-!
# Diagnostics

A scope or type error together with the file, the place and the source line it stands on: all that
is needed to show it.
-/

namespace SplBasic

/-- A problem of either analysis. -/
inductive Problem
  | scope (error : ScopeError)
  | type (error : TypeError)
  deriving DecidableEq, Repr

namespace Problem

def message : Problem → String
  | scope error => error.message
  | type error => error.message

/-- The analysis that found a problem. -/
def stage : Problem → String
  | scope _ => "scope"
  | type _ => "type"

end Problem

/-- A problem that can be shown. -/
structure Diagnostic where
  problem : Problem
  file : String
  pos : Position
  sourceLine : String
  deriving DecidableEq, Repr

namespace Diagnostic

def ofProblem (file : String) (source : SourceText) (problem : Located Problem) : Diagnostic :=
  ⟨problem.cause, file, problem.pos, source.line problem.pos.line⟩

/-- The wording of the problem, without its place. -/
def message (d : Diagnostic) : String :=
  d.problem.message

def render (d : Diagnostic) : String :=
  d.file ++ ":" ++ d.pos.render ++ ": " ++ d.problem.stage ++ " error: " ++ d.message ++ "\n"
    ++ Text.excerpt d.sourceLine d.pos.column

end Diagnostic

end SplBasic
