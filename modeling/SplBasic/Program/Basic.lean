import SplBasic.Forest
import SplBasic.Source
import SplBasic.Program.Command

/-!
# Programs

A program has global variables, a main block and a forest of functions: functions may be declared
inside functions, to any depth.
-/

namespace SplBasic

/-- A declared global or local variable. -/
structure VarDecl where
  typeToken : Token
  type : ValueType
  name : Name
  deriving DecidableEq, Repr

namespace VarDecl

def entry (decl : VarDecl) : Name × ValueType :=
  (decl.name, decl.type)

end VarDecl

/-- A function without the functions declared inside it. Parameters are numbers. -/
structure FunctionDecl where
  returnToken : Token
  returnType : ReturnType
  name : Name
  params : Triple Name
  locals : Triple VarDecl
  body : Block
  closing : Token
  deriving DecidableEq, Repr

namespace FunctionDecl

/-- The declared names of the function with their types: parameters, then locals. -/
def entries (f : FunctionDecl) : List (Name × ValueType) :=
  f.params.toList.map (·, .num) ++ f.locals.toList.map VarDecl.entry

end FunctionDecl

/-- A program, with the source text that its tokens tell. -/
structure Program where
  main : Token
  globals : List VarDecl
  block : Block
  functions : Forest FunctionDecl
  source : SourceText
  deriving DecidableEq, Repr

namespace Program

/-- The file that problems of the program are reported for. -/
def file (p : Program) : String :=
  p.main.file

/-- The functions at any depth, each with its number in preorder, counted from 1, and the number of
the function around it, 0 at top level. -/
def placed (p : Program) : Forest (Placed FunctionDecl) :=
  p.functions.place 0 1

end Program

end SplBasic
