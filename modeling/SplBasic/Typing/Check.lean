import SplBasic.Program.Basic
import SplBasic.Scope.Tree
import SplBasic.Typing.Error

/-!
# Type checking

| construct                        | rule                                            |
|----------------------------------|-------------------------------------------------|
| `not`, `or`, `and`               | operands `bool`, result `bool`                  |
| `sqrt`, `add`, `sub`, `mul`, `div` | operands `num`, result `num`                  |
| `eq`, `gt`                       | operands `num`, result `bool`                   |
| `V = E`                          | the types of `V` and `E` are equal              |
| `V < input`                      | `V` is `num`                                    |
| `if C`                           | `C` is `bool`                                   |
| `F(a, b, c)`                     | the arguments are `num`, the result is `F`'s    |
| `return A`                       | inside a function only, with its return type    |

Names are looked up by their current text among the unique names of a scope tree. What has no
declaration has the type `unknown`, which no rule complains about again.

For each construct there are three functions: `typeIn` gives its type, `typeProblems` what is wrong
inside it, in source order, and `annotate` the construct with all type tags set. A command that has
no problem inside is tagged `void`.
-/

namespace SplBasic

/-! ## Operators -/

namespace Operator

/-- The type that operands of an operator must have. -/
def operandType : Operator → Ty
  | unary .not => .bool
  | unary .sqrt => .num
  | binary .or => .bool
  | binary .and => .bool
  | binary .eq => .num
  | binary .gt => .num
  | binary .add => .num
  | binary .sub => .num
  | binary .mul => .num
  | binary .div => .num

def resultType : Operator → Ty
  | unary .not => .bool
  | unary .sqrt => .num
  | binary .or => .bool
  | binary .and => .bool
  | binary .eq => .bool
  | binary .gt => .bool
  | binary .add => .num
  | binary .sub => .num
  | binary .mul => .num
  | binary .div => .num

end Operator

/-- A list with `cause` blamed on `pos` if `found` is a known type other than `expected`. -/
def mismatch (expected found : Ty) (cause : TypeError) (pos : Position) :
    List (Located TypeError) :=
  if found ≠ .unknown ∧ found ≠ expected then [⟨cause, pos⟩] else []

/-! ## Names and expressions -/

namespace Name

/-- The declared type of a name that is used as a variable or a function. -/
def declaredType? (scopes : ScopeTree) (kind : SymbolKind) (name : Name) : Option Ty :=
  ((scopes.byUnique? name.text).filter fun d => d.symbol.kind = kind).map fun d => d.symbol.ty

/-- The type of a used name. -/
def typeIn (scopes : ScopeTree) (kind : SymbolKind) (name : Name) : Ty :=
  (name.declaredType? scopes kind).getD .unknown

/-- The problem of a used name that has no declaration. -/
def typeProblems (scopes : ScopeTree) (kind : SymbolKind) (name : Name) :
    List (Located TypeError) :=
  match name.declaredType? scopes kind with
  | some _ => []
  | none => [⟨.unknownSymbol name.source, name.pos⟩]

/-- The used name with its type tag set. -/
def annotate (scopes : ScopeTree) (kind : SymbolKind) (name : Name) : Name :=
  { name with tag := name.typeIn scopes kind }

end Name

namespace Atom

def typeIn (scopes : ScopeTree) : Atom → Ty
  | name n => n.typeIn scopes .variable
  | literal l => l.type.ty

def typeProblems (scopes : ScopeTree) : Atom → List (Located TypeError)
  | name n => n.typeProblems scopes .variable
  | literal _ => []

def annotate (scopes : ScopeTree) : Atom → Atom
  | name n => name (n.annotate scopes .variable)
  | literal l => literal { l with tag := l.type.ty }

end Atom

namespace Expr

/-- The type of an expression. An operation has the result type of its operator, whatever its
operands are. -/
def typeIn (scopes : ScopeTree) : Expr → Ty
  | atom a => a.typeIn scopes
  | unary op _ _ _ => (Operator.unary op).resultType
  | binary op _ _ _ _ => (Operator.binary op).resultType

/-- The problem of an operand that does not fit its operator. -/
def operandProblems (scopes : ScopeTree) (op : Operator) (operand : Expr) :
    List (Located TypeError) :=
  let found := operand.typeIn scopes
  mismatch op.operandType found (.operandMismatch op op.operandType found) operand.pos

def typeProblems (scopes : ScopeTree) : Expr → List (Located TypeError)
  | atom a => a.typeProblems scopes
  | unary op _ operand _ =>
    operand.typeProblems scopes ++ operand.operandProblems scopes (.unary op)
  | binary op _ left right _ =>
    left.typeProblems scopes ++ left.operandProblems scopes (.binary op)
      ++ right.typeProblems scopes ++ right.operandProblems scopes (.binary op)

def annotate (scopes : ScopeTree) : Expr → Expr
  | atom a => atom (a.annotate scopes)
  | unary op token operand _ =>
    unary op token (operand.annotate scopes) (Operator.unary op).resultType
  | binary op token left right _ =>
    binary op token (left.annotate scopes) (right.annotate scopes) (Operator.binary op).resultType

end Expr

namespace Call

/-- The type of a call: what its function returns. -/
def typeIn (scopes : ScopeTree) (c : Call) : Ty :=
  c.callee.typeIn scopes .function

/-- The type problems of the argument at a position, counted from 1. -/
def argumentProblems (scopes : ScopeTree) (c : Call) (position : Nat) (arg : Atom) :
    List (Located TypeError) :=
  let found := arg.typeIn scopes
  arg.typeProblems scopes
    ++ mismatch .num found (.callArgumentNotNum c.callee.source position found) arg.pos

def typeProblems (scopes : ScopeTree) (c : Call) : List (Located TypeError) :=
  c.callee.typeProblems scopes .function
    ++ c.argumentProblems scopes 1 c.args.first
    ++ c.argumentProblems scopes 2 c.args.second
    ++ c.argumentProblems scopes 3 c.args.third

def annotate (scopes : ScopeTree) (c : Call) : Call :=
  ⟨c.callee.annotate scopes .function, c.args.map (Atom.annotate scopes), c.typeIn scopes⟩

end Call

namespace Term

def typeIn (scopes : ScopeTree) : Term → Ty
  | expr e => e.typeIn scopes
  | call c => c.typeIn scopes

def typeProblems (scopes : ScopeTree) : Term → List (Located TypeError)
  | expr e => e.typeProblems scopes
  | call c => c.typeProblems scopes

def annotate (scopes : ScopeTree) : Term → Term
  | expr e => expr (e.annotate scopes)
  | call c => call (c.annotate scopes)

end Term

/-! ## Commands -/

/-- The function that a command stands in. -/
structure Enclosing where
  name : String
  returnType : Ty
  deriving DecidableEq, Repr

namespace SimpleCommand

/-- The type problems of a command; `outer` is the function it stands in, if any. -/
def typeProblems (scopes : ScopeTree) (outer : Option Enclosing) :
    SimpleCommand → List (Located TypeError)
  | skip _ => []
  | halt _ => []
  | print _ value => value.typeProblems scopes
  | giveBack keyword value =>
    value.typeProblems scopes ++
      match outer with
      | none => [⟨.returnOutsideFunction, keyword.pos⟩]
      | some f =>
        let found := value.typeIn scopes
        mismatch f.returnType found (.returnMismatch f.name f.returnType found) value.pos
  | read target _ =>
    let found := target.typeIn scopes .variable
    target.typeProblems scopes .variable
      ++ mismatch .num found (.inputNotNum target.source found) target.pos
  | assign target value =>
    let expected := target.typeIn scopes .variable
    let found := value.typeIn scopes
    target.typeProblems scopes .variable ++ value.typeProblems scopes ++
      if expected = .unknown then []
      else mismatch expected found (.assignmentMismatch target.source expected found) target.pos
  | call c => c.typeProblems scopes

def annotate (scopes : ScopeTree) : SimpleCommand → SimpleCommand
  | skip keyword => skip keyword
  | halt keyword => halt keyword
  | print keyword value => print keyword (value.annotate scopes)
  | giveBack keyword value => giveBack keyword (value.annotate scopes)
  | read target keyword => read (target.annotate scopes .variable) keyword
  | assign target value => assign (target.annotate scopes .variable) (value.annotate scopes)
  | call c => call (c.annotate scopes)

end SimpleCommand

def conditionProblems (scopes : ScopeTree) (condition : Expr) : List (Located TypeError) :=
  let found := condition.typeIn scopes
  condition.typeProblems scopes ++
    if found = .bool then [] else [⟨.conditionNotBool found, condition.pos⟩]

/-- The tag of a command with the given problems inside. -/
def commandTag (problems : List (Located TypeError)) : Ty :=
  if problems.isEmpty then .void else .unknown

namespace Commands

def typeProblems (scopes : ScopeTree) (outer : Option Enclosing) :
    Commands → List (Located TypeError)
  | nil => []
  | simple command _ rest => command.typeProblems scopes outer ++ rest.typeProblems scopes outer
  | ifThen _ condition _ body _ rest =>
    conditionProblems scopes condition ++ body.typeProblems scopes outer
      ++ rest.typeProblems scopes outer
  | ifThenElse _ condition _ thenBody _ elseBody _ rest =>
    conditionProblems scopes condition ++ thenBody.typeProblems scopes outer
      ++ elseBody.typeProblems scopes outer ++ rest.typeProblems scopes outer

def annotate (scopes : ScopeTree) (outer : Option Enclosing) : Commands → Commands
  | nil => nil
  | simple command _ rest =>
    simple (command.annotate scopes) (commandTag (command.typeProblems scopes outer))
      (rest.annotate scopes outer)
  | ifThen keyword condition brackets body _ rest =>
    let problems := conditionProblems scopes condition ++ body.typeProblems scopes outer
    ifThen keyword (condition.annotate scopes) brackets (body.annotate scopes outer)
      (commandTag problems) (rest.annotate scopes outer)
  | ifThenElse keyword condition thenBrackets thenBody elseBrackets elseBody _ rest =>
    let problems := conditionProblems scopes condition ++ thenBody.typeProblems scopes outer
      ++ elseBody.typeProblems scopes outer
    ifThenElse keyword (condition.annotate scopes) thenBrackets (thenBody.annotate scopes outer)
      elseBrackets (elseBody.annotate scopes outer) (commandTag problems)
      (rest.annotate scopes outer)

end Commands

namespace Block

def annotate (scopes : ScopeTree) (outer : Option Enclosing) (block : Block) : Block :=
  { block with commands := block.commands.annotate scopes outer }

end Block

/-! ## Declarations and programs -/

namespace Name

def withTag (name : Name) (ty : Ty) : Name :=
  { name with tag := ty }

end Name

namespace VarDecl

def annotate (decl : VarDecl) : VarDecl :=
  { decl with name := decl.name.withTag decl.type.ty }

end VarDecl

namespace FunctionDecl

/-- The function as what its own commands stand in. -/
def enclosing (f : FunctionDecl) : Enclosing :=
  ⟨f.name.source, f.returnType.ty⟩

/-- The type problems of a function, without those of the functions inside it. -/
def typeProblems (scopes : ScopeTree) (f : FunctionDecl) : List (Located TypeError) :=
  f.body.commands.typeProblems scopes (some f.enclosing)

def annotate (scopes : ScopeTree) (f : FunctionDecl) : FunctionDecl :=
  { f with
    name := f.name.withTag f.returnType.ty
    params := f.params.map fun name => name.withTag .num
    locals := f.locals.map VarDecl.annotate
    body := f.body.annotate scopes (some f.enclosing) }

end FunctionDecl

namespace Program

def typeProblems (scopes : ScopeTree) (p : Program) : List (Located TypeError) :=
  p.block.commands.typeProblems scopes none
    ++ p.functions.toList.flatMap (FunctionDecl.typeProblems scopes)

def annotate (scopes : ScopeTree) (p : Program) : Program :=
  { p with
    globals := p.globals.map VarDecl.annotate
    block := p.block.annotate scopes none
    functions := p.functions.map (FunctionDecl.annotate scopes) }

end Program

/-- A program whose types are checked. -/
structure Typing where
  program : Program
  problems : List (Located TypeError)
  deriving DecidableEq, Repr

namespace Typing

def ok (typing : Typing) : Bool :=
  typing.problems.isEmpty

end Typing

/-- Checks the types of a program against the declarations in `scopes`. Nothing stops at a
problem. -/
def typecheck (scopes : ScopeTree) (p : Program) : Typing :=
  ⟨p.annotate scopes, p.typeProblems scopes⟩

end SplBasic
