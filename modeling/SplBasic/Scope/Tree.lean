import SplBasic.Token.Basic
import SplBasic.Program.Ty

/-!
# Scope trees

A scope tree is the record of which scopes were opened and what was declared in them. Both records
are kept newest first, and everything is numbered from 0 in the order of its arrival. Scope 0 is the
global one; every other scope names the scope around it.

* `addScope`, `declare` : the two ways to grow a tree,
* `chain` : a scope and the scopes around it, from the inside out,
* `lookupLocal`, `lookup` : the newest declaration of a name in one scope, and in the nearest scope
  of a chain that has one,
* `lookupVariable`, `lookupFunction` : that nearest declaration, if it is of the wanted kind.
-/

namespace SplBasic

/-- What a name is declared to be. -/
inductive SymbolKind
  | variable | function
  deriving DecidableEq, Repr

/-- A declared name. `ty` is the type of a variable or the return type of a function; `level` is the
depth of the declaring scope. -/
structure Symbol where
  name : String
  unique : String
  kind : SymbolKind
  ty : Ty
  level : Nat
  pos : Position
  deriving DecidableEq, Repr

/-- A symbol with its number and the scope it is declared in. -/
structure Declaration where
  id : Nat
  scope : Nat
  symbol : Symbol
  deriving DecidableEq, Repr

/-- A scope with its number, its depth and the scope around it. -/
structure Scope where
  id : Nat
  name : String
  level : Nat
  parent : Option Nat
  deriving DecidableEq, Repr

/-- The scopes opened and the declarations made so far, newest first. -/
structure ScopeTree where
  scopes : List Scope
  declarations : List Declaration
  deriving DecidableEq, Repr

/-- The scopes met from `scope` outward, looked up among `scopes`, newest first. Each parent is
older than its child, so it is looked up among the older scopes only. -/
def scopeChain : (scopes : List Scope) → (scope : Nat) → List Scope
  | [], _ => []
  | newest :: older, scope =>
    if newest.id = scope then
      match newest.parent with
      | none => [newest]
      | some parent => newest :: scopeChain older parent
    else scopeChain older scope

namespace ScopeTree

def global : Nat :=
  0

/-- The global scope, and nothing declared. -/
def initial : ScopeTree :=
  ⟨[⟨global, "global", 0, none⟩], []⟩

/-! ## Scopes -/

def scope? (tree : ScopeTree) (scope : Nat) : Option Scope :=
  tree.scopes.find? fun s => s.id = scope

def level (tree : ScopeTree) (scope : Nat) : Nat :=
  (tree.scope? scope).elim 0 Scope.level

/-- The scopes directly inside a scope, oldest first. -/
def children (tree : ScopeTree) (scope : Nat) : List Nat :=
  (tree.scopes.reverse.filter fun s => s.parent = some scope).map Scope.id

/-- Opens a scope inside `parent`. The scope's number comes with the tree. -/
def addScope (tree : ScopeTree) (parent : Nat) (name : String) : Nat × ScopeTree :=
  let own := tree.scopes.length
  let scope : Scope := ⟨own, name, tree.level parent + 1, some parent⟩
  (own, { tree with scopes := scope :: tree.scopes })

/-- A scope and the scopes around it, from the inside out. -/
def chain (tree : ScopeTree) (scope : Nat) : List Scope :=
  scopeChain tree.scopes scope

/-! ## Declarations -/

/-- Declares a symbol in a scope. The symbol's number comes with the tree. A later declaration of a
name hides an earlier one. -/
def declare (tree : ScopeTree) (scope : Nat) (symbol : Symbol) : Nat × ScopeTree :=
  let id := tree.declarations.length
  (id, { tree with declarations := ⟨id, scope, symbol⟩ :: tree.declarations })

def declaration? (tree : ScopeTree) (id : Nat) : Option Declaration :=
  tree.declarations.find? fun d => d.id = id

/-- The newest declaration of a name in exactly this scope. -/
def lookupLocal (tree : ScopeTree) (scope : Nat) (name : String) : Option Declaration :=
  tree.declarations.find? fun d => d.scope = scope && d.symbol.name = name

/-- What is declared last is found first. -/
theorem lookupLocal_declare (tree : ScopeTree) (scope : Nat) (symbol : Symbol) (s : Nat)
    (name : String) :
    (tree.declare scope symbol).2.lookupLocal s name =
      if scope = s ∧ symbol.name = name then some ⟨tree.declarations.length, scope, symbol⟩
      else tree.lookupLocal s name := by
  by_cases here : scope = s ∧ symbol.name = name
  · simp [lookupLocal, declare, here]
  · simp [lookupLocal, declare, here]

@[simp] theorem lookupLocal_addScope (tree : ScopeTree) (parent : Nat) (opened : String) (s : Nat)
    (name : String) :
    (tree.addScope parent opened).2.lookupLocal s name = tree.lookupLocal s name := rfl

/-- The declaration of a name in the nearest scope that has one, from `scope` outward. The
declarations of the name are picked out once for the whole chain. -/
def lookup (tree : ScopeTree) (scope : Nat) (name : String) : Option Declaration :=
  let named := tree.declarations.filter fun d => d.symbol.name = name
  (tree.chain scope).findSome? fun s => named.find? fun d => d.scope = s.id

/-- Looking a name up means looking it up in one scope of the chain after the other. -/
theorem lookup_eq_findSome? (tree : ScopeTree) (scope : Nat) (name : String) :
    tree.lookup scope name = (tree.chain scope).findSome? fun s => tree.lookupLocal s.id name := by
  have single (s : Nat) :
      (tree.declarations.filter fun d => d.symbol.name = name).find? (fun d => d.scope = s)
        = tree.lookupLocal s name := by
    rw [List.find?_filter, lookupLocal]
    congr 1
    funext d
    simp [Bool.and_comm]
  simp only [lookup, single]

/-- The nearest declaration of a name, if it is of the given kind. -/
def lookupKind (kind : SymbolKind) (tree : ScopeTree) (scope : Nat) (name : String) :
    Option Declaration :=
  (tree.lookup scope name).filter fun d => d.symbol.kind = kind

def lookupVariable (tree : ScopeTree) (scope : Nat) (name : String) : Option Declaration :=
  tree.lookupKind .variable scope name

def lookupFunction (tree : ScopeTree) (scope : Nat) (name : String) : Option Declaration :=
  tree.lookupKind .function scope name

/-- The newest declaration with a given unique name. -/
def byUnique? (tree : ScopeTree) (unique : String) : Option Declaration :=
  tree.declarations.find? fun d => d.symbol.unique = unique

/-- The declarations of a scope that are not hidden by later ones, oldest first. -/
def bindings (tree : ScopeTree) (scope : Nat) : List Declaration :=
  tree.declarations.reverse.filter fun d =>
    d.scope = scope && (tree.lookupLocal scope d.symbol.name).any fun newest => newest.id = d.id

/-- How many symbols of a kind are declared. -/
def count (tree : ScopeTree) (kind : SymbolKind) : Nat :=
  tree.declarations.countP fun d => d.symbol.kind = kind

end ScopeTree

end SplBasic
