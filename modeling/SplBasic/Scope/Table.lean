import SplBasic.Scope.Tree
import SplBasic.Text.Line

/-!
# The table of symbols

Scopes in the order they were opened, each followed by the names declared in it.
-/

namespace SplBasic

namespace SymbolKind

def label : SymbolKind → String
  | .variable => "Variable"
  | .function => "Function"

end SymbolKind

namespace Symbol

/-- A row of the table: unique name, source name, kind and type. -/
def row (s : Symbol) : String :=
  Text.padRight 6 s.unique ++ " " ++ Text.padRight 14 s.name ++ " " ++ s.kind.label ++ " "
    ++ s.ty.name

end Symbol

namespace ScopeTree

/-- The part of the table for one scope. -/
def scopeTable (tree : ScopeTree) (scope : Scope) : String :=
  let indent := Text.spaces (2 * scope.level)
  indent ++ "scope " ++ scope.name ++ "\n"
    ++ String.join ((tree.bindings scope.id).map fun d => indent ++ "  " ++ d.symbol.row ++ "\n")

def table (tree : ScopeTree) : String :=
  String.join (tree.scopes.reverse.map tree.scopeTable)

end ScopeTree

end SplBasic
