/-!
# Token kinds

* `Punctuation`, `Keyword`, `Operator` : the fixed spellings of the language,
* `TokenKind` : those, the open classes (names and literals), and two kinds that only a foreign
  token source produces: `trivia`, which the parser skips, and `eof`, where it stops reading,
* `reservedWords` : the words with a fixed meaning.

`label` names a kind in tree listings; `describe` names it in messages.
-/

namespace SplBasic

/-- Brackets, separators and the two assignment signs. -/
inductive Punctuation
  | lparen | rparen | lbrace | rbrace | comma | semicolon | assign | less
  deriving DecidableEq, Repr

namespace Punctuation

def all : List Punctuation :=
  [lparen, rparen, lbrace, rbrace, comma, semicolon, assign, less]

def symbol : Punctuation → Char
  | lparen => '('
  | rparen => ')'
  | lbrace => '\x7b'
  | rbrace => '\x7d'
  | comma => ','
  | semicolon => ';'
  | assign => '='
  | less => '<'

/-- The name of a sign in listings. -/
def label : Punctuation → String
  | lparen => "LParen"
  | rparen => "RParen"
  | lbrace => "LBrace"
  | rbrace => "RBrace"
  | comma => "Comma"
  | semicolon => "Semicolon"
  | assign => "Assign"
  | less => "Less"

def ofSymbol? (c : Char) : Option Punctuation :=
  all.find? fun p => p.symbol = c

end Punctuation

/-- The words that structure a program. -/
inductive Keyword
  | mainWord | beginWord | endWord | numWord | textWord | voidWord | ifWord | thenWord | elseWord
  | skipWord | haltWord | printWord | inputWord | returnWord
  deriving DecidableEq, Repr

namespace Keyword

def all : List Keyword :=
  [mainWord, beginWord, endWord, numWord, textWord, voidWord, ifWord, thenWord, elseWord, skipWord,
    haltWord, printWord, inputWord, returnWord]

def spelling : Keyword → String
  | mainWord => "main"
  | beginWord => "begin"
  | endWord => "end"
  | numWord => "num"
  | textWord => "text"
  | voidWord => "void"
  | ifWord => "if"
  | thenWord => "then"
  | elseWord => "else"
  | skipWord => "skip"
  | haltWord => "halt"
  | printWord => "print"
  | inputWord => "input"
  | returnWord => "return"

def label : Keyword → String
  | mainWord => "Main"
  | beginWord => "Begin"
  | endWord => "End"
  | numWord => "Num"
  | textWord => "Text"
  | voidWord => "Void"
  | ifWord => "If"
  | thenWord => "Then"
  | elseWord => "Else"
  | skipWord => "Skip"
  | haltWord => "Halt"
  | printWord => "Print"
  | inputWord => "Input"
  | returnWord => "Return"

end Keyword

/-- Operators with one operand. -/
inductive UnaryOp
  | not | sqrt
  deriving DecidableEq, Repr

/-- Operators with two operands. -/
inductive BinaryOp
  | or | and | eq | gt | add | sub | mul | div
  deriving DecidableEq, Repr

/-- Operators, written in front of their bracketed operands. -/
inductive Operator
  | unary (op : UnaryOp)
  | binary (op : BinaryOp)
  deriving DecidableEq, Repr

namespace Operator

def all : List Operator :=
  [unary .not, unary .sqrt, binary .or, binary .and, binary .eq, binary .gt, binary .add,
    binary .sub, binary .mul, binary .div]

/-- The spelling of an operator in a program; `gt` has the second spelling `grt`. -/
def spelling : Operator → String
  | unary .not => "not"
  | unary .sqrt => "sqrt"
  | binary .or => "or"
  | binary .and => "and"
  | binary .eq => "eq"
  | binary .gt => "gt"
  | binary .add => "add"
  | binary .sub => "sub"
  | binary .mul => "mul"
  | binary .div => "div"

def label : Operator → String
  | unary .not => "Not"
  | unary .sqrt => "Sqrt"
  | binary .or => "Or"
  | binary .and => "And"
  | binary .eq => "Eq"
  | binary .gt => "Gt"
  | binary .add => "Add"
  | binary .sub => "Sub"
  | binary .mul => "Mul"
  | binary .div => "Div"

def isUnary : Operator → Bool
  | unary _ => true
  | binary _ => false

end Operator

/-- What a token is. -/
inductive TokenKind
  | punctuation (p : Punctuation)
  | keyword (k : Keyword)
  | operator (op : Operator)
  | varName
  | funName
  | numLit
  | textLit
  | trivia
  | eof
  deriving DecidableEq, Repr

namespace TokenKind

def all : List TokenKind :=
  Punctuation.all.map punctuation ++ Keyword.all.map keyword ++ Operator.all.map operator
    ++ [varName, funName, numLit, textLit, trivia, eof]

def label : TokenKind → String
  | punctuation p => p.label
  | keyword k => k.label
  | operator op => op.label
  | varName => "VName"
  | funName => "FName"
  | numLit => "NumLit"
  | textLit => "TextLit"
  | trivia => "Trivia"
  | eof => "Eof"

def ofLabel? (label : String) : Option TokenKind :=
  all.find? fun kind => kind.label = label

/-- The wording of a kind in messages: fixed spellings in quotes, the others in words. -/
def describe : TokenKind → String
  | punctuation p => "'" ++ p.symbol.toString ++ "'"
  | keyword k => "'" ++ k.spelling ++ "'"
  | operator op => "'" ++ op.spelling ++ "'"
  | varName => "variable name (e.g. V_sum)"
  | funName => "function name (e.g. F_sum)"
  | numLit => "number literal"
  | textLit => "text literal"
  | trivia => "whitespace"
  | eof => "end of input"

def operator? : TokenKind → Option Operator
  | operator op => some op
  | _ => none

def isUnaryOp (kind : TokenKind) : Bool :=
  kind.operator?.any Operator.isUnary

def isBinaryOp (kind : TokenKind) : Bool :=
  kind.operator?.any fun op => !op.isUnary

/-- The words with a fixed meaning, each with the kind of its token. -/
def reservedWords : List (String × TokenKind) :=
  Keyword.all.map (fun k => (k.spelling, keyword k))
    ++ Operator.all.map (fun op => (op.spelling, operator op))
    ++ [("grt", operator (.binary .gt))]

/-- The kind of a reserved word. -/
def ofWord? (word : String) : Option TokenKind :=
  reservedWords.lookup word

end TokenKind

end SplBasic
