import SplBasic.Triple

/-!
# BASIC statements and numbered lines

A listing is a sequence of statements. The statement at position `k`, counted from 0, has the line
number `10 * (k + 1)`; jump targets are positions as long as a listing is not written out.
-/

namespace SplBasic

/-- The distance between line numbers. -/
def lineStep : Nat :=
  10

def lineNumber (position : Nat) : Nat :=
  lineStep * (position + 1)

/-- The statements of the target language. Names and expressions are already written out. -/
inductive Statement
  | letVar (target value : String)
  | input (target : String)
  | print (value : String)
  | call (application : String)
  | sub (name : String) (params : Triple String)
  | locals (params : Triple String)
  | goto (target : Nat)
  | branch (condition : String) (thenTarget elseTarget : Nat)
  | giveBack (value : String)
  | finish
  | endSub
  deriving DecidableEq, Repr

/-- Three texts with commas between them. -/
def commaSeparated (texts : Triple String) : String :=
  texts.first ++ ", " ++ texts.second ++ ", " ++ texts.third

namespace Statement

def text : Statement → String
  | letVar target value => "LET " ++ target ++ " = " ++ value
  | input target => "INPUT " ++ target
  | print value => "PRINT " ++ value
  | call application => "CALL " ++ application
  | sub name params => "SUB " ++ name ++ "(" ++ commaSeparated params ++ ")"
  | locals params => "LOCAL " ++ commaSeparated params
  | goto target => "GOTO " ++ toString (lineNumber target)
  | branch condition thenTarget elseTarget =>
    "IF " ++ condition ++ " THEN GOTO " ++ toString (lineNumber thenTarget) ++ " ELSE GOTO "
      ++ toString (lineNumber elseTarget)
  | giveBack value => "RETURN " ++ value
  | finish => "END"
  | endSub => "END SUB"

end Statement

/-- A statement of a listing; those inside a function are indented. -/
structure ListingLine where
  indented : Bool
  statement : Statement
  deriving DecidableEq, Repr

namespace ListingLine

/-- The line at a position, with its number and its line feed. -/
def render (line : ListingLine) (position : Nat) : String :=
  toString (lineNumber position) ++ " " ++ (if line.indented then "  " else "")
    ++ line.statement.text ++ "\n"

end ListingLine

/-- The lines of a listing from a position on. -/
def renderLines (position : Nat) : List ListingLine → String
  | [] => ""
  | line :: rest => line.render position ++ renderLines (position + 1) rest

end SplBasic
