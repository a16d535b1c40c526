import SplBasic.Scope.Declare

/-!
# Resolving names

Once all declarations are made, every name is judged and renamed by the complete scope tree: a use
takes the unique name of the nearest declaration of its source name, seen from the scope of the
block it stands in.

* `functionObjection`, `useObjection` : what is wrong with a declared function and with a used name,
* `resolve` : the renamed program, its scope tree and its problems in source order.
-/

namespace SplBasic

namespace ScopeTree

/-! ## Declared functions -/

/-- The entry of a function: the declaration of its name in the scope around it, if that stands
where the function does. -/
def functionEntry (tree : ScopeTree) (outer : Nat) (name : Name) : Option Declaration :=
  (tree.lookupLocal outer name.source).filter fun d => d.symbol.pos = name.pos

/-- What is wrong with a declared function. -/
def functionObjection (tree : ScopeTree) (outer : Nat) (name : Name) : Option ScopeError :=
  if (tree.functionEntry outer name).isNone then some (.functionRedeclared name.source)
  else if isReserved name.bare then some (.reservedFunctionName name.source)
  else
    match tree.lookupVariable outer ("V_" ++ name.bare) with
    | some d => some (.functionClashesWithVariable name.source d.symbol.name)
    | none =>
      if (tree.scope? outer).any fun s => s.name = name.source then
        some (.functionNamedAfterParent name.source)
      else none

/-- The name of a declared function, made unique if the function has an entry. -/
def bindFunction (tree : ScopeTree) (outer : Nat) (name : Name) : Name :=
  match tree.functionEntry outer name with
  | some d => { name with text := d.symbol.unique }
  | none => name

/-! ## Used names -/

/-- The declaration that a used name refers to. The main block cannot be called. -/
def referent (tree : ScopeTree) (scope : Nat) : NameUse → Option Declaration
  | .variable name => tree.lookupVariable scope name.source
  | .callee name => if name.bare = "main" then none else tree.lookupFunction scope name.source

/-- What is wrong with a used name. -/
def useObjection (tree : ScopeTree) (scope : Nat) (use : NameUse) : Option (Located ScopeError) :=
  match tree.referent scope use, use with
  | some _, _ => none
  | none, .variable name => some ⟨.undeclaredVariable name.source, name.pos⟩
  | none, .callee name =>
    if name.bare = "main" then some ⟨.recursiveMain, name.pos⟩
    else some ⟨.undeclaredFunction name.source, name.pos⟩

/-- A name with the unique name of its declaration; unchanged if it has none. -/
def rename (name : Name) : Option Declaration → Name
  | some d => { name with text := d.symbol.unique }
  | none => name

def bindVariable (tree : ScopeTree) (scope : Nat) (name : Name) : Name :=
  rename name (tree.referent scope (.variable name))

def bindCallee (tree : ScopeTree) (scope : Nat) (name : Name) : Name :=
  rename name (tree.referent scope (.callee name))

def bindBlock (tree : ScopeTree) (scope : Nat) (block : Block) : Block :=
  block.mapNames (tree.bindVariable scope) (tree.bindCallee scope)

/-- What is wrong with the names that a block uses. -/
def blockProblems (tree : ScopeTree) (scope : Nat) (block : Block) : List (Located ScopeError) :=
  block.commands.uses.filterMap (tree.useObjection scope)

/-! ## Functions -/

/-- A function with all its names settled and renamed; `before` is the scope tree before its
variables were declared. -/
def bindDecl (tree before : ScopeTree) (f : Placed FunctionDecl) : FunctionDecl :=
  let scope := f.own
  let addParam := fun (tree : ScopeTree) name => tree.declareVariable scope (name, .num)
  let addLocal := fun (tree : ScopeTree) (decl : VarDecl) => tree.declareVariable scope decl.entry
  let params := f.value.params
  let afterParams := params.toList.foldl addParam before
  { f.value with
    name := tree.bindFunction f.outer f.value.name
    params := (params.along addParam before).map fun (tree, name) =>
      tree.settleVariable scope name
    locals := (f.value.locals.along addLocal afterParams).map fun (tree, decl) =>
      decl.settle scope tree
    body := tree.bindBlock scope f.value.body }

/-- What is wrong with the names of a function, in source order. -/
def declProblems (tree before : ScopeTree) (f : Placed FunctionDecl) : List (Located ScopeError) :=
  ((tree.functionObjection f.outer f.value.name).map (⟨·, f.value.name.pos⟩)).toList
    ++ before.variableProblems f.own f.value.entries
    ++ tree.blockProblems f.own f.value.body

end ScopeTree

namespace Program

/-- The functions, each with the scope tree before its variables are declared. -/
def sites (p : Program) : Forest (ScopeTree × Placed FunctionDecl) :=
  p.placed.along ScopeTree.declareVariables p.withGlobals

/-- The program with all names settled and renamed by the complete scope tree. -/
def bindNames (tree : ScopeTree) (p : Program) : Program :=
  let step := fun tree (decl : VarDecl) => tree.declareVariable ScopeTree.global decl.entry
  { p with
    globals := (along step p.hoisted p.globals).map fun (tree, decl) =>
      decl.settle ScopeTree.global tree
    block := tree.bindBlock ScopeTree.global p.block
    functions := p.sites.map fun (before, f) => tree.bindDecl before f }

/-- What is wrong with the names of the program, in source order. -/
def scopeProblems (tree : ScopeTree) (p : Program) : List (Located ScopeError) :=
  p.hoisted.variableProblems ScopeTree.global (p.globals.map VarDecl.entry)
    ++ tree.blockProblems ScopeTree.global p.block
    ++ p.sites.toList.flatMap fun (before, f) => tree.declProblems before f

end Program

/-- A program whose names are resolved. -/
structure Resolution where
  program : Program
  scopes : ScopeTree
  problems : List (Located ScopeError)
  deriving DecidableEq, Repr

/-- Resolves all names of a program. Nothing stops at a problem: what can be resolved is. -/
def resolve (p : Program) : Resolution :=
  let tree := p.scopeTree
  ⟨p.bindNames tree, tree, p.scopeProblems tree⟩

end SplBasic
