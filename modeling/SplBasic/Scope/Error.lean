/-!
# Scope errors

What can be wrong with a declared or used name. Names are given in their source spelling.
-/

namespace SplBasic

/-- What is wrong with a name. -/
inductive ScopeError
  | variableRedeclared (name : String)
  | reservedVariableName (name : String)
  | variableClashesWithFunction (name other : String)
  | functionRedeclared (name : String)
  | reservedFunctionName (name : String)
  | functionClashesWithVariable (name other : String)
  | functionNamedAfterParent (name : String)
  | undeclaredVariable (name : String)
  | undeclaredFunction (name : String)
  | recursiveMain
  deriving DecidableEq, Repr

namespace ScopeError

def message : ScopeError → String
  | variableRedeclared name => "variable '" ++ name ++ "' is already declared in this scope"
  | reservedVariableName name => "variable name '" ++ name ++ "' is a reserved keyword"
  | variableClashesWithFunction name other =>
    "variable name '" ++ name ++ "' conflicts with function '" ++ other ++ "'"
  | functionRedeclared name => "function '" ++ name ++ "' is already declared in this scope"
  | reservedFunctionName name => "function name '" ++ name ++ "' is a reserved keyword"
  | functionClashesWithVariable name other =>
    "function name '" ++ name ++ "' conflicts with variable '" ++ other ++ "'"
  | functionNamedAfterParent name =>
    "function name '" ++ name ++ "' is the same as its enclosing function"
  | undeclaredVariable name => "variable '" ++ name ++ "' is not declared"
  | undeclaredFunction name => "function '" ++ name ++ "' is not declared"
  | recursiveMain => "recursive call to main is not allowed"

end ScopeError

end SplBasic
