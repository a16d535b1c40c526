import SplBasic.Token.Basic

/-!
# Source text rebuilt from tokens

Errors show the line they stand on. Where only tokens are at hand, the line is rebuilt from them:
each lexeme is put at its own column, and a space divides lexemes that would overlap.
-/

namespace SplBasic

/-- A source text as far as its tokens tell. -/
structure SourceText where
  tokens : List Token
  deriving DecidableEq, Repr

namespace SourceText

/-- What is put between a line of `width` characters and a lexeme that belongs at offset `start`. -/
def gap (width start : Nat) : List Char :=
  if width < start then List.replicate (start - width) ' '
  else if start < width then [' ']
  else []

/-- Lexemes at their columns, behind `width` characters that stand on the line already. -/
def layout (width : Nat) : List Token → List Char
  | [] => []
  | token :: rest =>
    let between := gap width (token.pos.column - 1)
    let lexeme := token.lexeme.toList
    between ++ lexeme ++ layout (width + between.length + lexeme.length) rest

/-- Line `n` of the text; empty if no token stands on it. -/
def line (source : SourceText) (n : Nat) : String :=
  String.ofList (layout 0 (source.tokens.filter fun token => token.pos.line = n))

end SourceText

end SplBasic
