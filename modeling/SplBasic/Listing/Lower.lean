import SplBasic.Listing.Statement
import SplBasic.Program.Basic

/-!
# Lowering programs to BASIC

Names are written with their current text. A listing starts with one `LET` for each global and the
main block, and `END` closes it. One part for each function follows, in preorder:

```text
SUB f(p, q, r)
  LOCAL p, q, r
  …
END SUB
```

A branch becomes a conditional jump over its blocks:

```text
     IF c THEN GOTO a ELSE GOTO b
a    …                              the first block
     GOTO z                         only if there is a second block
b    …                              the second block
z    …
```

The number of statements of a block does not depend on where it stands, so all targets are known
from the start of a block and the sizes of its parts.
-/

namespace SplBasic

/-! ## Expressions -/

namespace Atom

/-- An atom in BASIC. -/
def basic : Atom → String
  | name n => n.text
  | literal l => l.token.lexeme

end Atom

namespace BinaryOp

def basic : BinaryOp → String
  | or => "OR"
  | and => "AND"
  | eq => "="
  | gt => ">"
  | add => "+"
  | sub => "-"
  | mul => "*"
  | div => "/"

end BinaryOp

namespace Expr

/-- An expression in BASIC, fully bracketed. -/
def basic : Expr → String
  | atom a => a.basic
  | unary .sqrt _ operand _ => "(SQRT (" ++ operand.basic ++ "))"
  | unary .not _ operand _ => "(NOT " ++ operand.basic ++ ")"
  | binary op _ left right _ => "(" ++ left.basic ++ " " ++ op.basic ++ " " ++ right.basic ++ ")"

end Expr

namespace Call

def basic (c : Call) : String :=
  c.callee.text ++ "(" ++ commaSeparated (c.args.map Atom.basic) ++ ")"

end Call

namespace Term

def basic : Term → String
  | expr e => e.basic
  | call c => c.basic

end Term

/-! ## Commands -/

namespace SimpleCommand

/-- The statement of a command that stands at `position`. Skipping is a jump to the next line. -/
def statement (position : Nat) : SimpleCommand → Statement
  | skip _ => .goto (position + 1)
  | halt _ => .finish
  | print _ value => .print value.basic
  | giveBack _ value => .giveBack value.basic
  | read target _ => .input target.text
  | assign target value => .letVar target.text value.basic
  | call c => .call c.basic

end SimpleCommand

namespace Commands

/-- The number of statements that the commands become. -/
def size : Commands → Nat
  | nil => 0
  | simple _ _ rest => 1 + rest.size
  | ifThen _ _ _ body _ rest => 1 + body.size + rest.size
  | ifThenElse _ _ _ thenBody _ elseBody _ rest => 1 + thenBody.size + 1 + elseBody.size + rest.size

/-- The statements of the commands, the first of which stands at `start`. -/
def statements (start : Nat) : Commands → List Statement
  | nil => []
  | simple command _ rest => command.statement start :: rest.statements (start + 1)
  | ifThen _ condition _ body _ rest =>
    let after := start + 1 + body.size
    .branch condition.basic (start + 1) after
      :: (body.statements (start + 1) ++ rest.statements after)
  | ifThenElse _ condition _ thenBody _ elseBody _ rest =>
    let elseStart := start + 1 + thenBody.size + 1
    let after := elseStart + elseBody.size
    .branch condition.basic (start + 1) elseStart
      :: (thenBody.statements (start + 1) ++ .goto after
        :: (elseBody.statements elseStart ++ rest.statements after))

@[simp] theorem length_statements (start : Nat) (cs : Commands) :
    (cs.statements start).length = cs.size := by
  induction cs generalizing start with
  | nil => rfl
  | simple command tag rest ih => simp [statements, size, ih, Nat.add_comm]
  | ifThen keyword condition brackets body tag rest ihBody ihRest =>
    simp [statements, size, ihBody, ihRest]
    omega
  | ifThenElse keyword condition thenBrackets thenBody elseBrackets elseBody tag rest ihThen ihElse
      ihRest =>
    simp [statements, size, ihThen, ihElse, ihRest]
    omega

end Commands

/-! ## Functions and programs -/

namespace FunctionDecl

def lineCount (f : FunctionDecl) : Nat :=
  3 + f.body.commands.size

/-- The lines of a function, the first of which stands at `start`. -/
def listing (start : Nat) (f : FunctionDecl) : List ListingLine :=
  let params := f.params.map Name.text
  ⟨false, .sub f.name.text params⟩ :: ⟨true, .locals params⟩
    :: ((f.body.commands.statements (start + 2)).map (⟨true, ·⟩) ++ [⟨false, .endSub⟩])

@[simp] theorem length_listing (start : Nat) (f : FunctionDecl) :
    (f.listing start).length = f.lineCount := by
  simp [listing, lineCount]
  omega

end FunctionDecl

/-- The lines of functions one after the other, the first of which stands at `start`. -/
def functionListings (start : Nat) : List FunctionDecl → List ListingLine
  | [] => []
  | f :: rest => f.listing start ++ functionListings (start + f.lineCount) rest

namespace ValueType

/-- What a global starts as. -/
def initialValue : ValueType → String
  | num => "0"
  | text => "\"\""

end ValueType

namespace Program

def prologue (p : Program) : List Statement :=
  p.globals.map fun decl => .letVar decl.name.text decl.type.initialValue

def mainStatements (p : Program) : List Statement :=
  p.prologue ++ p.block.commands.statements p.globals.length ++ [.finish]

def listing (p : Program) : List ListingLine :=
  p.mainStatements.map (⟨false, ·⟩) ++ functionListings p.mainStatements.length p.functions.toList

def basic (p : Program) : String :=
  renderLines 0 p.listing

end Program

end SplBasic
