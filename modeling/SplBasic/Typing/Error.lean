import SplBasic.Program.Ty

/-!
# Type errors

What can be wrong with the types of a program. Names are given in their source spelling.
-/

namespace SplBasic

/-- What is wrong with the types at some place. -/
inductive TypeError
  | assignmentMismatch (name : String) (expected found : Ty)
  | inputNotNum (name : String) (found : Ty)
  | conditionNotBool (found : Ty)
  | operandMismatch (op : Operator) (expected found : Ty)
  | callArgumentNotNum (name : String) (position : Nat) (found : Ty)
  | returnMismatch (function : String) (expected found : Ty)
  | returnOutsideFunction
  | unknownSymbol (name : String)
  deriving DecidableEq, Repr

namespace TypeError

def message : TypeError → String
  | assignmentMismatch name expected found =>
    "type mismatch in assignment to variable '" ++ name ++ "': expected " ++ expected.name
      ++ ", found " ++ found.name
  | inputNotNum name found =>
    "cannot read input into '" ++ name ++ "': expected num, found " ++ found.name
  | conditionNotBool found => "condition must be bool, found " ++ found.name
  | operandMismatch op expected found =>
    "operator '" ++ op.spelling ++ "' expects " ++ expected.name ++ " operands, found "
      ++ found.name
  | callArgumentNotNum name position found =>
    "argument " ++ toString position ++ " of call to '" ++ name ++ "' must be num, found "
      ++ found.name
  | returnMismatch function expected found =>
    "return type mismatch in '" ++ function ++ "': expected " ++ expected.name ++ ", found "
      ++ found.name
  | returnOutsideFunction => "return outside of a function"
  | unknownSymbol name => "'" ++ name ++ "' has no declaration"

end TypeError

end SplBasic
