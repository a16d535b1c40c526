import SplBasic.Token.Kind

/-!
# Types

* `ValueType` : what variables and literals can be,
* `ReturnType` : what functions can return,
* `Ty` : the type tag of a node; `unknown` as long as no type is determined.
-/

namespace SplBasic

/-- The types of variables and literals. -/
inductive ValueType
  | num | text
  deriving DecidableEq, Repr

/-- What a function declares to return. -/
inductive ReturnType
  | value (type : ValueType)
  | void
  deriving DecidableEq, Repr

/-- Type tags. `bool` is the type of conditions, `void` that of commands. -/
inductive Ty
  | unknown | num | text | void | bool
  deriving DecidableEq, Repr

namespace ValueType

/-- The tag of a value type. -/
def ty : ValueType → Ty
  | num => .num
  | text => .text

def ofKind? : TokenKind → Option ValueType
  | .keyword .numWord => some num
  | .keyword .textWord => some text
  | _ => none

end ValueType

namespace ReturnType

def ty : ReturnType → Ty
  | value type => type.ty
  | void => .void

def ofKind? : TokenKind → Option ReturnType
  | .keyword .voidWord => some void
  | kind => (ValueType.ofKind? kind).map value

end ReturnType

namespace Ty

def all : List Ty :=
  [unknown, num, text, void, bool]

/-- The name of a tag in messages and listings. -/
def name : Ty → String
  | unknown => "unknown"
  | num => "num"
  | text => "text"
  | void => "void"
  | bool => "bool"

def ofName? (name : String) : Option Ty :=
  all.find? fun ty => ty.name = name

end Ty

end SplBasic
