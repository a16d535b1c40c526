import SplBasic.Program.Basic
import SplBasic.Scope.Error
import SplBasic.Scope.Tree

/-!
# Declaring the names of a program

Functions are declared first, so that a call may stand before its callee: `hoisted` opens one scope
for every function, numbered in preorder, and declares each function in the scope around it. Of
several functions with one name in one scope the first is declared.

Variables follow, scope by scope: the globals, then for each function in preorder its parameters and
its locals. A variable that meets an objection is left undeclared.

Functions become `f1`, `f2`, … and variables `v1`, `v2`, … in the order of their declaration.
-/

namespace SplBasic

/-- The words that a name must not spell without its mark. -/
def reservedNames : List String :=
  ["main", "begin", "end", "num", "text", "void", "if", "then", "else", "skip", "halt", "print",
    "input", "return", "not", "sqrt", "or", "and", "eq", "gt", "grt", "add", "sub", "mul", "div"]

def isReserved (bare : String) : Bool :=
  reservedNames.contains bare

namespace ScopeTree

/-! ## Functions -/

def nextFunctionName (tree : ScopeTree) : String :=
  "f" ++ toString (tree.count .function + 1)

/-- Opens the scope of a function and declares the function, unless its name is taken. -/
def hoist (tree : ScopeTree) (f : Placed FunctionDecl) : ScopeTree :=
  let name := f.value.name
  let opened := (tree.addScope f.outer name.source).2
  if (opened.lookupLocal f.outer name.source).isSome then opened
  else
    (opened.declare f.outer
      ⟨name.source, opened.nextFunctionName, .function, f.value.returnType.ty, opened.level f.outer,
        name.pos⟩).2

/-! ## Variables -/

def nextVariableName (tree : ScopeTree) : String :=
  "v" ++ toString (tree.count .variable + 1)

/-- What speaks against declaring a variable in a scope. -/
def variableObjection (tree : ScopeTree) (scope : Nat) (name : Name) : Option ScopeError :=
  if (tree.lookupLocal scope name.source).isSome then some (.variableRedeclared name.source)
  else if isReserved name.bare then some (.reservedVariableName name.source)
  else
    (tree.lookupFunction scope ("F_" ++ name.bare)).map fun d =>
      .variableClashesWithFunction name.source d.symbol.name

/-- Declares a variable, unless something speaks against it. -/
def declareVariable (tree : ScopeTree) (scope : Nat) (entry : Name × ValueType) : ScopeTree :=
  let (name, type) := entry
  if (tree.variableObjection scope name).isSome then tree
  else
    (tree.declare scope
      ⟨name.source, tree.nextVariableName, .variable, type.ty, tree.level scope, name.pos⟩).2

/-- The name of a variable behind its declaration: unique if it is declared, unchanged if not. -/
def settleVariable (tree : ScopeTree) (scope : Nat) (name : Name) : Name :=
  if (tree.variableObjection scope name).isSome then name
  else { name with text := tree.nextVariableName }

/-- What speaks against each of some variables, declared one after the other. -/
def variableProblems (tree : ScopeTree) (scope : Nat) (entries : List (Name × ValueType)) :
    List (Located ScopeError) :=
  (along (declareVariable · scope) tree entries).filterMap fun (tree, name, _) =>
    (tree.variableObjection scope name).map (⟨·, name.pos⟩)

def declareVariables (tree : ScopeTree) (f : Placed FunctionDecl) : ScopeTree :=
  f.value.entries.foldl (declareVariable · f.own) tree

end ScopeTree

namespace VarDecl

def settle (scope : Nat) (tree : ScopeTree) (decl : VarDecl) : VarDecl :=
  { decl with name := tree.settleVariable scope decl.name }

end VarDecl

namespace Program

/-- The scope tree with all functions and no variables. -/
def hoisted (p : Program) : ScopeTree :=
  p.placed.toList.foldl ScopeTree.hoist .initial

/-- The scope tree with all functions and the globals. -/
def withGlobals (p : Program) : ScopeTree :=
  (p.globals.map VarDecl.entry).foldl (ScopeTree.declareVariable · ScopeTree.global) p.hoisted

def scopeTree (p : Program) : ScopeTree :=
  p.placed.toList.foldl ScopeTree.declareVariables p.withGlobals

end Program

end SplBasic
