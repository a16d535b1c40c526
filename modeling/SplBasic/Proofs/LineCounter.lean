import SplBasic.Proofs.JumpTargets

/-!
# Listings from a line counter

A second way to make a listing. A generator goes through a program once and keeps no positions, only
the number of the last line and an indentation. Every line takes the next number off the counter.
The number of a condition is taken before the lines inside it, as is the number of the jump over an
`else`; what these two lines say is known, and written, only when the counter stands behind them.

* `Generator`, `Generating` : the counter, and what is generated with it,
* `Commands.generate`, `generateFunctions`, `Program.generate` : the pass through a program,
* `Commands.generate_apply`, `generateFunctions_apply` : from any state of the counter on, commands
  and functions are listed as `statements` and `functionListings` say,
* `Program.generatedText_eq_basic` : the text is the one of the listing, whose numbers stand for
  positions.
-/

namespace SplBasic

/-! ## The counter -/

/-- The number of the last line, which is 0 before the first, and the indentation of the next. -/
structure Generator where
  line : Nat
  indentation : String
  deriving DecidableEq, Repr

/-- Something that is generated with the counter. -/
abbrev Generating := StateM Generator

namespace Generating

/-- Takes the next number, for a line that is written at once or later. -/
def reserve : Generating Nat := fun g =>
  (g.line + lineStep, { g with line := g.line + lineStep })

/-- The number that the next line will have. -/
def upcoming : Generating Nat := fun g =>
  (g.line + lineStep, g)

/-- A line with a number that is reserved. -/
def lineAt (number : Nat) (text : String) : Generating NumberedLine := fun g =>
  (⟨number, g.indentation, text⟩, g)

def emit (text : String) : Generating NumberedLine := do
  lineAt (← reserve) text

/-- What is generated one step further to the right. -/
def indented {α : Type} (inside : Generating α) : Generating α := fun g =>
  let (result, behind) := inside { g with indentation := g.indentation ++ "  " }
  (result, { behind with indentation := g.indentation })

end Generating

open Generating

/-! ## The pass through a program -/

namespace SimpleCommand

/-- The line of a command. Skipping jumps to the line behind its own. -/
def generate : SimpleCommand → Generating NumberedLine
  | skip _ => do emit ("GOTO " ++ toString ((← upcoming) + lineStep))
  | halt _ => emit "END"
  | print _ value => emit ("PRINT " ++ value.basic)
  | giveBack _ value => emit ("RETURN " ++ value.basic)
  | read target _ => emit ("INPUT " ++ target.text)
  | assign target value => emit ("LET " ++ target.text ++ " = " ++ value.basic)
  | call c => emit ("CALL " ++ c.basic)

end SimpleCommand

/-- The line of a condition, at a number that was reserved for it. -/
def generateCondition (number : Nat) (condition : Expr) (thenStart elseStart : Nat) :
    Generating NumberedLine :=
  lineAt number ("IF " ++ condition.basic ++ " THEN GOTO " ++ toString thenStart ++ " ELSE GOTO "
    ++ toString elseStart)

namespace Commands

def generate : Commands → Generating (List NumberedLine)
  | nil => return []
  | simple command _ rest => do
    let line ← command.generate
    return line :: (← rest.generate)
  | ifThen _ condition _ body _ rest => do
    let conditionLine ← reserve
    let thenStart ← upcoming
    let inside ← body.generate
    let after ← upcoming
    let test ← generateCondition conditionLine condition thenStart after
    return test :: (inside ++ (← rest.generate))
  | ifThenElse _ condition _ thenBody _ elseBody _ rest => do
    let conditionLine ← reserve
    let thenStart ← upcoming
    let thenLines ← thenBody.generate
    -- where the skip leads is known only behind the second block, so its line is written later
    let skipLine ← reserve
    let elseStart ← upcoming
    let elseLines ← elseBody.generate
    let after ← upcoming
    let skip ← lineAt skipLine ("GOTO " ++ toString after)
    let test ← generateCondition conditionLine condition thenStart elseStart
    return test :: (thenLines ++ skip :: (elseLines ++ (← rest.generate)))

end Commands

namespace FunctionDecl

/-- The lines of a function, without those of the functions inside it. -/
def generate (f : FunctionDecl) : Generating (List NumberedLine) := do
  let params := f.params.first.text ++ ", " ++ f.params.second.text ++ ", " ++ f.params.third.text
  let opening ← emit ("SUB " ++ f.name.text ++ "(" ++ params ++ ")")
  let inside ← indented do
    let locals ← emit ("LOCAL " ++ params)
    return locals :: (← f.body.commands.generate)
  let closing ← emit "END SUB"
  return opening :: (inside ++ [closing])

end FunctionDecl

/-- The lines of functions, each followed by those of the functions inside it. -/
def generateFunctions : Forest FunctionDecl → Generating (List NumberedLine)
  | .nil => return []
  | .cons f inner rest => do
    let own ← f.generate
    let innerLines ← generateFunctions inner
    return own ++ (innerLines ++ (← generateFunctions rest))

def generateGlobals : List VarDecl → Generating (List NumberedLine)
  | [] => return []
  | decl :: rest => do
    let line ← emit ("LET " ++ decl.name.text ++ " = " ++ decl.type.initialValue)
    return line :: (← generateGlobals rest)

namespace Program

def generate (p : Program) : Generating (List NumberedLine) := do
  let globals ← generateGlobals p.globals
  let main ← p.block.commands.generate
  let closing ← emit "END"
  return globals ++ (main ++ closing :: (← generateFunctions p.functions))

/-- The text of the lines of a program, generated from the start of the counter. -/
def generatedText (p : Program) : String :=
  String.join ((p.generate ⟨0, ""⟩).1.map NumberedLine.render)

end Program

/-! ## The counter at a position -/

namespace Generator

/-- The state in front of the line at `position`. -/
def atPosition (position : Nat) (indentation : String) : Generator :=
  ⟨lineStep * position, indentation⟩

end Generator

open Generator

namespace Generating

variable {α β : Type} (position : Nat) (indentation : String)

theorem bind_apply (x : Generating α) (f : α → Generating β) (g : Generator) :
    (x >>= f) g = f (x g).1 (x g).2 := rfl

theorem pure_eq (a : α) (g : Generator) : (pure a : Generating α) g = (a, g) := rfl

theorem reserve_atPosition : reserve (atPosition position indentation) =
    (lineNumber position, atPosition (position + 1) indentation) := rfl

theorem upcoming_atPosition : upcoming (atPosition position indentation) =
    (lineNumber position, atPosition position indentation) := rfl

theorem lineAt_atPosition (number : Nat) (text : String) :
    lineAt number text (atPosition position indentation) =
      (⟨number, indentation, text⟩, atPosition position indentation) := rfl

theorem emit_atPosition (text : String) : emit text (atPosition position indentation) =
    (⟨lineNumber position, indentation, text⟩, atPosition (position + 1) indentation) := rfl

end Generating

def indentationOf (indented : Bool) : String :=
  if indented then "  " else ""

section Commands

variable (indented : Bool) (position : Nat)

/-- A command without blocks takes the next number. -/
theorem SimpleCommand.generate_apply (command : SimpleCommand) :
    command.generate (atPosition position (indentationOf indented)) =
      (⟨lineNumber position, indentationOf indented, (command.statement position).text⟩,
        atPosition (position + 1) (indentationOf indented)) := by
  cases command with
  | skip keyword => rfl
  | halt keyword => rfl
  | print keyword value => rfl
  | giveBack keyword value => rfl
  | read target keyword => rfl
  | assign target value => rfl
  | call c => rfl

/-- From a position on, commands become the lines of their statements there, and the counter ends
behind the last of them. -/
theorem Commands.generate_apply (cs : Commands) :
    cs.generate (atPosition position (indentationOf indented)) =
      (numberStatements indented position (cs.statements position),
        atPosition (position + cs.size) (indentationOf indented)) := by
  induction cs generalizing position with
  | nil => rfl
  | simple command tag rest ih =>
    have lines : numberStatements indented position
          ((simple command tag rest).statements position) =
        ⟨lineNumber position, indentationOf indented, (command.statement position).text⟩
          :: numberStatements indented (position + 1) (rest.statements (position + 1)) := rfl
    simp only [generate, bind_apply, pure_eq, SimpleCommand.generate_apply, ih, lines, size,
      Nat.add_assoc]
  | ifThen keyword condition brackets body tag rest ihBody ihRest =>
    -- the condition is written last, with the number that was reserved first
    simp only [generate, bind_apply, pure_eq, reserve_atPosition, upcoming_atPosition, ihBody,
      generateCondition, lineAt_atPosition, ihRest, statements, numberStatements_cons,
      numberStatements_append, length_statements, size, Nat.add_assoc]
    rfl
  | ifThenElse keyword condition thenBrackets thenBody elseBrackets elseBody tag rest ihThen ihElse
      ihRest =>
    simp only [generate, bind_apply, pure_eq, reserve_atPosition, upcoming_atPosition, ihThen,
      ihElse, generateCondition, lineAt_atPosition, ihRest, statements, numberStatements_cons,
      numberStatements_append, length_statements, size, Nat.add_assoc]
    rfl

end Commands

/-! ## Functions and programs -/

/-- Behind what is indented, the counter goes on without the indentation. -/
theorem Generating.indented_eq {α : Type} {inside : Generating α} {position behind : Nat}
    {result : α} (generates : inside (atPosition position "  ") = (result, atPosition behind "  ")) :
    Generating.indented inside (atPosition position "") = (result, atPosition behind "") := by
  have unfolded : Generating.indented inside (atPosition position "") =
      ((inside (atPosition position "  ")).1,
        { (inside (atPosition position "  ")).2 with indentation := "" }) := rfl
  rw [unfolded, generates]
  rfl

/-- A function takes as many numbers as it has lines, and takes its indentation back. -/
theorem FunctionDecl.generate_apply (f : FunctionDecl) (position : Nat) :
    f.generate (atPosition position "") =
      (numberLines position (f.listing position), atPosition (position + f.lineCount) "") := by
  -- the opening line takes one number, the line of the locals another, then the body follows
  let size := f.body.commands.size
  let params := f.params.first.text ++ ", " ++ f.params.second.text ++ ", " ++ f.params.third.text
  let bodyLines := numberStatements true (position + 2) (f.body.commands.statements (position + 2))
  have body : f.body.commands.generate (atPosition (position + 2) "  ") =
      (bodyLines, atPosition (position + 2 + size) "  ") :=
    f.body.commands.generate_apply true (position + 2)
  have inside : Generating.indented (do
        let locals ← emit ("LOCAL " ++ params)
        return locals :: (← f.body.commands.generate)) (atPosition (position + 1) "") =
      (⟨lineNumber (position + 1), "  ", "LOCAL " ++ params⟩ :: bodyLines,
        atPosition (position + 2 + size) "") := by
    apply indented_eq
    simp only [bind_apply, pure_eq, emit_atPosition, body]
  have lines : numberLines position (f.listing position) =
      ⟨lineNumber position, "", "SUB " ++ f.name.text ++ "(" ++ params ++ ")"⟩
        :: ((⟨lineNumber (position + 1), "  ", "LOCAL " ++ params⟩ :: bodyLines)
          ++ [⟨lineNumber (position + 2 + size), "", "END SUB"⟩]) := by
    have split := numberLines_append (position + 2)
      ((f.body.commands.statements (position + 2)).map (ListingLine.mk true)) [⟨false, .endSub⟩]
    rw [List.length_map, Commands.length_statements] at split
    rw [listing, numberLines, numberLines, split]
    rfl
  have count : position + f.lineCount = position + 2 + size + 1 := by
    simp only [lineCount, size]
    omega
  rw [lines, count]
  simp only [generate, bind_apply, pure_eq, emit_atPosition]
  rw [inside]
  rfl

/-- Functions are listed in preorder, whatever the counter starts from. -/
theorem generateFunctions_apply (functions : Forest FunctionDecl) (position : Nat) :
    generateFunctions functions (atPosition position "") =
      (numberLines position (functionListings position functions.toList),
        atPosition (position + (functionListings position functions.toList).length) "") := by
  induction functions generalizing position with
  | nil => rfl
  | cons f inner rest ihInner ihRest =>
    simp only [generateFunctions, bind_apply, pure_eq, FunctionDecl.generate_apply, ihInner, ihRest,
      Forest.toList, functionListings, functionListings_append, numberLines_append,
      FunctionDecl.length_listing, List.length_append, Nat.add_assoc]

/-- Each global variable takes a number. -/
theorem generateGlobals_apply (globals : List VarDecl) (position : Nat) :
    generateGlobals globals (atPosition position "") =
      (numberStatements false position
          (globals.map fun decl => .letVar decl.name.text decl.type.initialValue),
        atPosition (position + globals.length) "") := by
  induction globals generalizing position with
  | nil => rfl
  | cons decl rest ih =>
    simp only [generateGlobals, bind_apply, pure_eq, emit_atPosition, ih, List.map_cons,
      numberStatements_cons, List.length_cons, Nat.add_assoc, Nat.add_comm 1]
    rfl

namespace Program

theorem length_mainStatements (p : Program) :
    p.mainStatements.length = p.globals.length + p.block.commands.size + 1 := by
  simp [mainStatements, prologue, Nat.add_assoc]

/-- The lines of the main part: the globals, the block, and `END`. -/
theorem numberStatements_mainParts (p : Program) :
    numberStatements false 0 p.mainStatements = numberStatements false 0 p.prologue
      ++ (numberStatements false p.globals.length (p.block.commands.statements p.globals.length)
        ++ [⟨lineNumber (p.globals.length + p.block.commands.size), "", "END"⟩]) := by
  rw [mainStatements, List.append_assoc, numberStatements_append, numberStatements_append]
  simp only [prologue, List.length_map, Commands.length_statements, Nat.zero_add]
  rfl

/-- The generator writes the numbered lines of the listing, and ends on the number of the last. -/
theorem generate_apply (p : Program) :
    p.generate ⟨0, ""⟩ = (p.numberedLines, ⟨lineStep * p.listing.length, ""⟩) := by
  let size := p.block.commands.size
  let functions := functionListings p.mainStatements.length p.functions.toList
  have globals : generateGlobals p.globals (atPosition 0 "") =
      (numberStatements false 0 p.prologue, atPosition p.globals.length "") := by
    have generated := generateGlobals_apply p.globals 0
    rwa [Nat.zero_add] at generated
  have block : p.block.commands.generate (atPosition p.globals.length "") =
      (numberStatements false p.globals.length (p.block.commands.statements p.globals.length),
        atPosition (p.globals.length + size) "") :=
    p.block.commands.generate_apply false p.globals.length
  -- the functions start behind the line that ends the main part
  have behind : generateFunctions p.functions (atPosition (p.globals.length + size + 1) "") =
      (numberLines p.mainStatements.length functions,
        atPosition (p.mainStatements.length + functions.length) "") := by
    rw [← p.length_mainStatements]
    exact generateFunctions_apply p.functions p.mainStatements.length
  have lines : p.numberedLines = numberStatements false 0 p.mainStatements
      ++ numberLines p.mainStatements.length functions := by
    rw [numberedLines, listing, numberLines_append, List.length_map, Nat.zero_add]
    rfl
  have count : p.listing.length = p.mainStatements.length + functions.length := by
    simp [listing, functions]
  rw [lines, count, numberStatements_mainParts, List.append_assoc, List.append_assoc]
  show p.generate (atPosition 0 "") = _
  simp only [generate, bind_apply, pure_eq, globals, block, emit_atPosition, behind]
  rfl

/-- Counting lines gives the text in which numbers stand for positions. -/
theorem generatedText_eq_basic (p : Program) : p.generatedText = p.basic := by
  rw [generatedText, generate_apply, basic, renderLines_eq_join]
  rfl

/-- Although some numbers are taken long before their lines are written, the lines come out in the
order of the counter, with none left out. -/
theorem map_number_generate (p : Program) :
    (p.generate ⟨0, ""⟩).1.map NumberedLine.number =
      (List.range p.listing.length).map lineNumber := by
  have counted (listing : List ListingLine) (position : Nat) :
      (numberLines position listing).map NumberedLine.number =
        (List.range' position listing.length).map lineNumber := by
    induction listing generalizing position with
    | nil => rfl
    | cons line rest ih =>
      calc (numberLines position (line :: rest)).map NumberedLine.number
          = lineNumber position :: (numberLines (position + 1) rest).map NumberedLine.number := rfl
        _ = lineNumber position :: (List.range' (position + 1) rest.length).map lineNumber := by
            rw [ih]
        _ = (List.range' position (line :: rest).length).map lineNumber := by
            rw [List.length_cons, List.range'_succ, List.map_cons]
  rw [generate_apply, numberedLines, counted, List.range_eq_range']

end Program

end SplBasic
