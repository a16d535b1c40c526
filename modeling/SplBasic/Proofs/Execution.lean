import Mathlib.Data.List.Basic
import SplBasic.Listing.Lower

/-!
# Running listings and running blocks

Two ways to execute a program that agree on nothing but the texts of statements and conditions:

* `Interpretation` : what the texts of statements do to a state, and how the texts of conditions are
  decided; nothing is assumed of either,
* `run` : a listing, followed line number by line number,
* `Commands.execute`, `Segment.execute` : the commands of a block, one after the other.

Both record every statement that acts and every condition that is tested. A listing is followed by
its texts alone: `Instruction.ofText` reads off a line what it tells the machine to do.
-/

namespace SplBasic

universe u

variable {σ : Type u}

/-- What statements do and how conditions are decided, by their texts. -/
structure Interpretation (σ : Type u) where
  act : String → σ → σ
  test : String → σ → Bool

/-- Something that an execution does. -/
inductive Event
  | effect (text : String)
  | test (condition : String) (holds : Bool)
  deriving DecidableEq, Repr

/-- A finished execution: what it did, the state it ends in and the text it stops on. -/
structure Finish (σ : Type u) where
  events : List Event
  state : σ
  text : String

/-! ## Reading lines -/

/-- What a line tells the machine to do. -/
inductive Instruction
  | goto (target : Nat)
  | branch (condition : String) (thenTarget elseTarget : Nat)
  | stop
  | act
  deriving DecidableEq, Repr

/-- The number at the end of a text, behind what stands before it. -/
def trailingNumber (cs : List Char) : List Char × Nat :=
  let backwards := cs.reverse
  ((backwards.dropWhile Char.isDigit).reverse,
    Nat.ofDigitChars 10 (backwards.takeWhile Char.isDigit).reverse 0)

namespace Instruction

/-- Reads `GOTO n`. -/
def goto? (cs : List Char) : Option Instruction :=
  (cs.dropPrefix? "GOTO ".toList).map fun digits => goto (trailingNumber digits).2

/-- Reads `IF c THEN GOTO a ELSE GOTO b` from its end, as `c` may contain anything. -/
def branch? (cs : List Char) : Option Instruction := do
  let behindIf ← cs.dropPrefix? "IF ".toList
  let (front, elseTarget) := trailingNumber behindIf
  let front ← front.dropSuffix? " ELSE GOTO ".toList
  let (front, thenTarget) := trailingNumber front
  let condition ← front.dropSuffix? " THEN GOTO ".toList
  return branch (String.ofList condition) thenTarget elseTarget

def isStop (cs : List Char) : Bool :=
  cs == "END".toList || cs == "END SUB".toList || "RETURN".toList.isPrefixOf cs

def ofText (text : String) : Instruction :=
  let cs := text.toList
  match goto? cs <|> branch? cs with
  | some jump => jump
  | none => if isStop cs then stop else act

end Instruction

/-! ## Running a listing -/

/-- A line as it is listed: its number, its indentation and its text. -/
structure NumberedLine where
  number : Nat
  indentation : String
  text : String
  deriving DecidableEq, Repr

namespace NumberedLine

def render (line : NumberedLine) : String :=
  toString line.number ++ " " ++ line.indentation ++ line.text ++ "\n"

end NumberedLine

/-- The lines of a listing, the first of which stands at `position`. -/
def numberLines (position : Nat) : List ListingLine → List NumberedLine
  | [] => []
  | line :: rest =>
    ⟨lineNumber position, if line.indented then "  " else "", line.statement.text⟩
      :: numberLines (position + 1) rest

/-- The text of a listing is that of its numbered lines. -/
theorem renderLines_eq_join (position : Nat) (listing : List ListingLine) :
    renderLines position listing =
      String.join ((numberLines position listing).map NumberedLine.render) := by
  induction listing generalizing position with
  | nil => simp [renderLines, numberLines]
  | cons line rest ih =>
    simp [renderLines, numberLines, ListingLine.render, NumberedLine.render, ih]

def textAt (lines : List NumberedLine) (number : Nat) : Option String :=
  (lines.find? fun line => line.number = number).map NumberedLine.text

/-- The number of the first line listed behind a line number. -/
def nextNumber (lines : List NumberedLine) (number : Nat) : Option Nat :=
  (lines.find? fun line => number < line.number).map NumberedLine.number

/-- How a run ends. -/
inductive Outcome (σ : Type u)
  | stopped (finish : Finish σ)
  /-- Control came to a line that is not listed. -/
  | missing
  /-- The run did not stop within its budget. -/
  | unfinished

namespace Outcome

/-- The outcome of a run that does `events` first. -/
def after (events : List Event) : Outcome σ → Outcome σ
  | stopped finish => stopped { finish with events := events ++ finish.events }
  | missing => missing
  | unfinished => unfinished

end Outcome

/-- Runs a listing from a line number on, for at most `budget` lines. -/
def run (I : Interpretation σ) (lines : List NumberedLine) :
    (budget : Nat) → (number : Nat) → σ → Outcome σ
  | 0, _, _ => .unfinished
  | budget + 1, number, s =>
    match textAt lines number with
    | none => .missing
    | some text =>
      match Instruction.ofText text with
      | .goto target => run I lines budget target s
      | .branch condition thenTarget elseTarget =>
        let holds := I.test condition s
        (run I lines budget (if holds then thenTarget else elseTarget) s).after
          [.test condition holds]
      | .stop => .stopped ⟨[], s, text⟩
      | .act =>
        match nextNumber lines number with
        | none => .missing
        | some next => (run I lines budget next (I.act text s)).after [.effect text]

/-! ## Executing a block -/

/-- How far an execution of commands came: what it did, the state it left, and the text it stopped
on unless it came to the end of the commands. -/
structure Progress (σ : Type u) where
  events : List Event
  state : σ
  stop : Option String

namespace Progress

def idle (s : σ) : Progress σ :=
  ⟨[], s, none⟩

def halt (text : String) (s : σ) : Progress σ :=
  ⟨[], s, some text⟩

def effect (I : Interpretation σ) (text : String) (s : σ) : Progress σ :=
  ⟨[.effect text], I.act text s, none⟩

/-- What follows is executed only if the execution did not stop. -/
def andThen (first : Progress σ) (next : σ → Progress σ) : Progress σ :=
  match first.stop with
  | some _ => first
  | none =>
    let second := next first.state
    ⟨first.events ++ second.events, second.state, second.stop⟩

/-- A condition is tested and decides what follows. -/
def choose (I : Interpretation σ) (condition : String) (yes no : σ → Progress σ) (s : σ) :
    Progress σ :=
  let holds := I.test condition s
  andThen ⟨[.test condition holds], s, none⟩ (if holds then yes else no)

/-- The execution of what stops on `closing` at its end. -/
def finish (progress : Progress σ) (closing : String) : Finish σ :=
  ⟨progress.events, progress.state, progress.stop.getD closing⟩

end Progress

namespace SimpleCommand

/-- Executes a command without blocks. Skipping does nothing; halting and returning stop. -/
def execute (I : Interpretation σ) : SimpleCommand → σ → Progress σ
  | skip _ => .idle
  | halt _ => .halt "END"
  | print _ value => .effect I ("PRINT " ++ value.basic)
  | giveBack _ value => .halt ("RETURN " ++ value.basic)
  | read target _ => .effect I ("INPUT " ++ target.text)
  | assign target value => .effect I ("LET " ++ target.text ++ " = " ++ value.basic)
  | call c => .effect I ("CALL " ++ c.basic)

end SimpleCommand

namespace Commands

/-- Executes commands in order. A branch tests its condition once and executes the chosen block. -/
def execute (I : Interpretation σ) : Commands → σ → Progress σ
  | nil, s => .idle s
  | simple command _ rest, s => (command.execute I s).andThen (rest.execute I)
  | ifThen _ condition _ body _ rest, s =>
    (Progress.choose I condition.basic (body.execute I) .idle s).andThen (rest.execute I)
  | ifThenElse _ condition _ thenBody _ elseBody _ rest, s =>
    (Progress.choose I condition.basic (thenBody.execute I) (elseBody.execute I) s).andThen
      (rest.execute I)

end Commands

/-- Statements act one after the other. -/
def performAll (I : Interpretation σ) : List String → σ → Progress σ
  | [], s => .idle s
  | text :: rest, s => (Progress.effect I text s).andThen (performAll I rest)

/-- A part of a program that runs on its own: statements that come first, a block, and the text that
it stops on if the block comes to its end. -/
structure Segment where
  prologue : List String
  block : Block
  closing : String

namespace Segment

def execute (I : Interpretation σ) (segment : Segment) (s : σ) : Finish σ :=
  ((performAll I segment.prologue s).andThen (segment.block.commands.execute I)).finish
    segment.closing

end Segment

namespace Program

/-- The main part: globals are set, then the main block is executed. -/
def mainSegment (p : Program) : Segment where
  prologue := p.globals.map fun decl =>
    "LET " ++ decl.name.text ++ " = " ++ decl.type.initialValue
  block := p.block
  closing := "END"

def numberedLines (p : Program) : List NumberedLine :=
  numberLines 0 p.listing

/-- The position at which a function starts, given the functions `before` it in preorder: behind
the main part and their lines. -/
def functionStart (p : Program) (before : List FunctionDecl) : Nat :=
  p.mainStatements.length + (functionListings p.mainStatements.length before).length

end Program

namespace FunctionDecl

/-- A function: it announces its name, its parameters and its locals, then executes its body. -/
def segment (f : FunctionDecl) : Segment where
  prologue :=
    let params := f.params.first.text ++ ", " ++ f.params.second.text ++ ", " ++ f.params.third.text
    ["SUB " ++ f.name.text ++ "(" ++ params ++ ")", "LOCAL " ++ params]
  block := f.body
  closing := "END SUB"

end FunctionDecl

end SplBasic
