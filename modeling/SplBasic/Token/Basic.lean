import SplBasic.Token.Kind

/-!
# Tokens and positions

Lines and columns count from 1; a column is one character, whatever its width on screen. Tokens may
also come from elsewhere than this library's lexer, so a token's kind, position and lexeme need not
agree with each other.
-/

namespace SplBasic

/-- A place in a source text. -/
structure Position where
  line : Nat
  column : Nat
  deriving DecidableEq, Repr

namespace Position

def start : Position :=
  ⟨1, 1⟩

/-- The place right behind a character that stands at `pos`. -/
def advance (pos : Position) (c : Char) : Position :=
  if c = '\n' then ⟨pos.line + 1, 1⟩ else ⟨pos.line, pos.column + 1⟩

/-- The place right behind the characters that start at `pos`. -/
def advanceAll (pos : Position) (cs : List Char) : Position :=
  cs.foldl advance pos

@[simp] theorem advanceAll_cons (pos : Position) (c : Char) (cs : List Char) :
    pos.advanceAll (c :: cs) = (pos.advance c).advanceAll cs := rfl

/-- Positions in messages: `line:column`. -/
def render (pos : Position) : String :=
  toString pos.line ++ ":" ++ toString pos.column

end Position

/-- A cause together with the place it is blamed on. -/
structure Located (α : Type) where
  cause : α
  pos : Position
  deriving DecidableEq, Repr

/-- A word or sign of a program, with the place where it stands. -/
structure Token where
  kind : TokenKind
  file : String
  pos : Position
  lexeme : String
  deriving DecidableEq, Repr

namespace Token

def describe (token : Token) : String :=
  if token.kind = .eof then TokenKind.eof.describe else "'" ++ token.lexeme ++ "'"

end Token

end SplBasic
