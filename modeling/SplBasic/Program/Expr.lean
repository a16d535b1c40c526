import SplBasic.Triple
import SplBasic.Token.Basic
import SplBasic.Program.Ty

/-!
# Names, expressions and terms

Every node keeps the token it was read from and a type tag. A name also keeps its current text: the
source spelling at first, and a program-wide unique name once names are resolved.

* `Name`, `Literal`, `Atom` : the leaves,
* `Expr` : atoms and operations nested to any depth,
* `Call` : a call with its three arguments,
* `Term` : what may stand on the right of an assignment.
-/

namespace SplBasic

/-- An occurrence of a variable or function name. -/
structure Name where
  token : Token
  text : String
  tag : Ty
  deriving DecidableEq, Repr

/-- A spelling without the mark `V_` or `F_` in front. -/
def bareName (spelling : String) : String :=
  match spelling.toList with
  | 'V' :: '_' :: cs => String.ofList cs
  | 'F' :: '_' :: cs => String.ofList cs
  | _ => spelling

namespace Name

/-- A name as it is read. -/
def ofToken (token : Token) : Name :=
  ⟨token, token.lexeme, .unknown⟩

/-- The spelling in the source. -/
def source (name : Name) : String :=
  name.token.lexeme

/-- The spelling in the source without its mark. -/
def bare (name : Name) : String :=
  bareName name.source

def pos (name : Name) : Position :=
  name.token.pos

end Name

/-- A number or text written out in the program. -/
structure Literal where
  token : Token
  type : ValueType
  tag : Ty
  deriving DecidableEq, Repr

/-- A variable or a literal. -/
inductive Atom
  | name (name : Name)
  | literal (literal : Literal)
  deriving DecidableEq, Repr

namespace Atom

def pos : Atom → Position
  | name n => n.pos
  | literal l => l.token.pos

def tag : Atom → Ty
  | name n => n.tag
  | literal l => l.tag

end Atom

/-- Atoms and operations on them. -/
inductive Expr
  | atom (atom : Atom)
  | unary (op : UnaryOp) (token : Token) (operand : Expr) (tag : Ty)
  | binary (op : BinaryOp) (token : Token) (left right : Expr) (tag : Ty)
  deriving DecidableEq, Repr

namespace Expr

/-- Where the expression stands: an operation stands where its operator does. -/
def pos : Expr → Position
  | atom a => a.pos
  | unary _ token _ _ => token.pos
  | binary _ token _ _ _ => token.pos

def tag : Expr → Ty
  | atom a => a.tag
  | unary _ _ _ tag => tag
  | binary _ _ _ _ tag => tag

end Expr

/-- A function applied to its arguments. -/
structure Call where
  callee : Name
  args : Triple Atom
  tag : Ty
  deriving DecidableEq, Repr

/-- The right side of an assignment. -/
inductive Term
  | expr (expr : Expr)
  | call (call : Call)
  deriving DecidableEq, Repr

namespace Term

def pos : Term → Position
  | expr e => e.pos
  | call c => c.callee.pos

def tag : Term → Ty
  | expr e => e.tag
  | call c => c.tag

end Term

/-! ## Uses of names -/

/-- A name that is used, as opposed to declared. -/
inductive NameUse
  | variable (name : Name)
  | callee (name : Name)
  deriving DecidableEq, Repr

namespace Atom

/-- The names that the atom uses. -/
def uses : Atom → List NameUse
  | name n => [.variable n]
  | literal _ => []

/-- Applies `f` to the variable of the atom. -/
def mapNames (f : Name → Name) : Atom → Atom
  | name n => name (f n)
  | literal l => literal l

end Atom

namespace Expr

def uses : Expr → List NameUse
  | atom a => a.uses
  | unary _ _ operand _ => operand.uses
  | binary _ _ left right _ => left.uses ++ right.uses

def mapNames (f : Name → Name) : Expr → Expr
  | atom a => atom (a.mapNames f)
  | unary op token operand tag => unary op token (operand.mapNames f) tag
  | binary op token left right tag => binary op token (left.mapNames f) (right.mapNames f) tag

end Expr

namespace Call

def uses (c : Call) : List NameUse :=
  .callee c.callee :: c.args.toList.flatMap Atom.uses

/-- Applies `f` to the variables of the call and `g` to its callee. -/
def mapNames (f g : Name → Name) (c : Call) : Call :=
  { c with callee := g c.callee, args := c.args.map (Atom.mapNames f) }

end Call

namespace Term

def uses : Term → List NameUse
  | expr e => e.uses
  | call c => c.uses

def mapNames (f g : Name → Name) : Term → Term
  | expr e => expr (e.mapNames f)
  | call c => call (c.mapNames f g)

end Term

end SplBasic
