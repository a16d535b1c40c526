import SplBasic.Program.Expr

/-!
# Commands and blocks

* `SimpleCommand` : the commands without blocks of their own,
* `Commands` : what stands in a block, each command with its type tag,
* `Block` : commands between `begin` and `end`.
-/

namespace SplBasic

/-- The commands without blocks of their own. -/
inductive SimpleCommand
  | skip (keyword : Token)
  | halt (keyword : Token)
  | print (keyword : Token) (value : Atom)
  | giveBack (keyword : Token) (value : Atom)
  | read (target : Name) (keyword : Token)
  | assign (target : Name) (value : Term)
  | call (call : Call)
  deriving DecidableEq, Repr

namespace SimpleCommand

def pos : SimpleCommand → Position
  | skip keyword => keyword.pos
  | halt keyword => keyword.pos
  | print keyword _ => keyword.pos
  | giveBack keyword _ => keyword.pos
  | read target _ => target.pos
  | assign target _ => target.pos
  | call c => c.callee.pos

/-- The names that the command uses, in source order. -/
def uses : SimpleCommand → List NameUse
  | skip _ => []
  | halt _ => []
  | print _ value => value.uses
  | giveBack _ value => value.uses
  | read target _ => [.variable target]
  | assign target value => .variable target :: value.uses
  | call c => c.uses

/-- Applies `f` to the variables of the command and `g` to its callees. -/
def mapNames (f g : Name → Name) : SimpleCommand → SimpleCommand
  | skip keyword => skip keyword
  | halt keyword => halt keyword
  | print keyword value => print keyword (value.mapNames f)
  | giveBack keyword value => giveBack keyword (value.mapNames f)
  | read target keyword => read (f target) keyword
  | assign target value => assign (f target) (value.mapNames f g)
  | call c => call (c.mapNames f g)

end SimpleCommand

/-- The words around a block. -/
structure Brackets where
  opening : Token
  closing : Token
  deriving DecidableEq, Repr

/-- The commands of a block in order. -/
inductive Commands
  | nil
  | simple (command : SimpleCommand) (tag : Ty) (rest : Commands)
  | ifThen (keyword : Token) (condition : Expr) (brackets : Brackets) (body : Commands) (tag : Ty)
      (rest : Commands)
  | ifThenElse (keyword : Token) (condition : Expr) (thenBrackets : Brackets) (thenBody : Commands)
      (elseBrackets : Brackets) (elseBody : Commands) (tag : Ty) (rest : Commands)
  deriving DecidableEq, Repr

namespace Commands

def uses : Commands → List NameUse
  | nil => []
  | simple command _ rest => command.uses ++ rest.uses
  | ifThen _ condition _ body _ rest => condition.uses ++ body.uses ++ rest.uses
  | ifThenElse _ condition _ thenBody _ elseBody _ rest =>
    condition.uses ++ thenBody.uses ++ elseBody.uses ++ rest.uses

def mapNames (f g : Name → Name) : Commands → Commands
  | nil => nil
  | simple command tag rest => simple (command.mapNames f g) tag (rest.mapNames f g)
  | ifThen keyword condition brackets body tag rest =>
    ifThen keyword (condition.mapNames f) brackets (body.mapNames f g) tag (rest.mapNames f g)
  | ifThenElse keyword condition thenBrackets thenBody elseBrackets elseBody tag rest =>
    ifThenElse keyword (condition.mapNames f) thenBrackets (thenBody.mapNames f g) elseBrackets
      (elseBody.mapNames f g) tag (rest.mapNames f g)

end Commands

/-- Commands between `begin` and `end`. -/
structure Block where
  brackets : Brackets
  commands : Commands
  deriving DecidableEq, Repr

namespace Block

def mapNames (f g : Name → Name) (block : Block) : Block :=
  { block with commands := block.commands.mapNames f g }

end Block

end SplBasic
