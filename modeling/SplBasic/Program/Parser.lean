import SplBasic.Program.Basic
import SplBasic.Text.Line

/-!
# Parsing

The grammar, with `TYPE` for `num` or `text`:

```text
PROGRAM   = main GLOBALS BLOCK FUNCTIONS
GLOBALS   = [TYPE VARIABLE ["," GLOBALS]]
BLOCK     = begin [COMMAND {";" COMMAND} [";"]] end
COMMAND   = skip | halt | print ATOM | return ATOM | VARIABLE "<" input | VARIABLE "=" TERM | CALL
          | if OPERATION then BLOCK [else BLOCK]
TERM      = ATOM | CALL | OPERATION
CALL      = FUNCTION "(" ATOM "," ATOM "," ATOM ")"
OPERATION = UNARY "(" OPERAND ")" | BINARY "(" OPERAND "," OPERAND ")"
OPERAND   = ATOM | OPERATION
ATOM      = VARIABLE | NUMBER | TEXT
FUNCTIONS = [(TYPE | void) FUNCTION "(" VARIABLE "," VARIABLE "," VARIABLE ")"
             "{" LOCAL LOCAL LOCAL BLOCK "}" FUNCTIONS end FUNCTIONS]
LOCAL     = TYPE VARIABLE ","
```

One token decides every choice, so a parser stops at the first token that cannot go on. It fails
with what was expected there, and its state is then what was left to read.

Nonterminals that contain themselves take a bound on the number of tokens left. `parse` starts from
one that always suffices.
-/

namespace SplBasic

/-- What could have stood at the place of a parse error. -/
inductive Expected
  | token (kind : TokenKind)
  | valueType
  | localType
  | returnType
  | commandOrEnd
  | semicolonOrEnd
  | assignment
  | term
  | operation
  | atom
  deriving DecidableEq, Repr

namespace Expected

/-- The wording of what was expected. -/
def describe : Expected → String
  | token kind => kind.describe
  | valueType => "'num' or 'text'"
  | localType => "'num' or 'text' (a function declares exactly three locals)"
  | returnType => "'num', 'text' or 'void'"
  | commandOrEnd => "a command or 'end'"
  | semicolonOrEnd => "';' or 'end'"
  | assignment => "'<' or '='"
  | term => "a constant, variable, call or operation"
  | operation => "an operator (not, sqrt, or, and, eq, gt, add, sub, mul, div)"
  | atom => "a variable or constant"

end Expected

/-- Parsers read tokens from the front; on failure the tokens that are left start with the one that
cannot go on. -/
abbrev Parser := EStateM Expected (List Token)

namespace Parser

/-! ## Single tokens -/

/-- Reads one token that `accept` takes. -/
def one {α : Type} (expected : Expected) (accept : Token → Option α) : Parser α
  | [] => .error expected []
  | token :: rest =>
    match accept token with
    | some a => .ok a rest
    | none => .error expected (token :: rest)

/-- The kind of the next token. -/
def peek : Parser (Option TokenKind)
  | tokens => .ok (tokens.head?.map Token.kind) tokens

def expect (kind : TokenKind) : Parser Token :=
  one (.token kind) fun token => if token.kind = kind then some token else none

def expectWord (word : Keyword) : Parser Token :=
  expect (.keyword word)

def expectSign (sign : Punctuation) : Parser Token :=
  expect (.punctuation sign)

/-- Reads a punctuation sign if it comes next, and says whether it did. -/
def skipSign (sign : Punctuation) : Parser Bool := do
  if (← peek) = some (.punctuation sign) then
    let _ ← expectSign sign
    return true
  else return false

def variableName : Parser Name :=
  Name.ofToken <$> expect .varName

def functionName : Parser Name :=
  Name.ofToken <$> expect .funName

/-! ## Expressions -/

/-- The atom that a token is. -/
def atomOfToken? (token : Token) : Option Atom :=
  match token.kind with
  | .varName => some (.name (.ofToken token))
  | .numLit => some (.literal ⟨token, .num, .unknown⟩)
  | .textLit => some (.literal ⟨token, .text, .unknown⟩)
  | _ => none

def atom : Parser Atom :=
  one .atom atomOfToken?

/-- `OPERAND`, given how to read operations. -/
def operand (operation : Parser Expr) : Parser Expr := do
  match ← peek with
  | some (.operator _) => operation
  | _ => .atom <$> atom

/-- `OPERATION` -/
def operation : (bound : Nat) → Parser Expr
  | 0 => throw .operation
  | bound + 1 => do
    let (op, token) ← one .operation fun token => token.kind.operator?.map (·, token)
    let _ ← expectSign .lparen
    let left ← operand (operation bound)
    match op with
    | .unary op =>
      let _ ← expectSign .rparen
      return .unary op token left .unknown
    | .binary op =>
      let _ ← expectSign .comma
      let right ← operand (operation bound)
      let _ ← expectSign .rparen
      return .binary op token left right .unknown

def call : Parser Call := do
  let callee ← functionName
  let _ ← expectSign .lparen
  let first ← atom
  let _ ← expectSign .comma
  let second ← atom
  let _ ← expectSign .comma
  let third ← atom
  let _ ← expectSign .rparen
  return ⟨callee, ⟨first, second, third⟩, .unknown⟩

def term (bound : Nat) : Parser Term := do
  match ← peek with
  | some .varName => .expr <$> .atom <$> atom
  | some .numLit => .expr <$> .atom <$> atom
  | some .textLit => .expr <$> .atom <$> atom
  | some .funName => .call <$> call
  | some (.operator _) => .expr <$> operation bound
  | _ => throw .term

/-! ## Commands -/

/-- An assignment or an input, behind its target. -/
def assignment (bound : Nat) (target : Name) : Parser SimpleCommand := do
  match ← peek with
  | some (.punctuation .less) =>
    let _ ← expectSign .less
    return .read target (← expectWord .inputWord)
  | some (.punctuation .assign) =>
    let _ ← expectSign .assign
    return .assign target (← term bound)
  | _ => throw .assignment

/-- Whether a token of this kind starts a command without blocks. -/
def startsSimple : TokenKind → Bool
  | .keyword .skipWord => true
  | .keyword .haltWord => true
  | .keyword .printWord => true
  | .keyword .returnWord => true
  | .varName => true
  | .funName => true
  | _ => false

def simpleCommand (bound : Nat) : Parser SimpleCommand := do
  match ← peek with
  | some (.keyword .skipWord) => .skip <$> expectWord .skipWord
  | some (.keyword .haltWord) => .halt <$> expectWord .haltWord
  | some (.keyword .printWord) => .print <$> expectWord .printWord <*> atom
  | some (.keyword .returnWord) => .giveBack <$> expectWord .returnWord <*> atom
  | some .varName => variableName >>= assignment bound
  | some .funName => .call <$> call
  | _ => throw .commandOrEnd

/-- The end of the commands of a block. The word `end` is left to read. -/
def noCommands (expected : Expected) : Parser Commands := do
  if (← peek) = some (.keyword .endWord) then return .nil else throw expected

/-- What follows a command in its block, given how to read further commands. -/
def moreCommands (commands : Parser Commands) : Parser Commands := do
  if ← skipSign .semicolon then commands else noCommands .semicolonOrEnd

/-- `BLOCK`, given how to read its commands. -/
def block (commands : Parser Commands) : Parser Block := do
  let opening ← expectWord .beginWord
  let commands ← commands
  let closing ← expectWord .endWord
  return ⟨⟨opening, closing⟩, commands⟩

/-- The commands of a block. -/
def commands : (bound : Nat) → Parser Commands
  | 0 => throw .commandOrEnd
  | bound + 1 => do
    match ← peek with
    | some (.keyword .ifWord) =>
      let keyword ← expectWord .ifWord
      let condition ← operation bound
      let _ ← expectWord .thenWord
      let body ← block (commands bound)
      if (← peek) = some (.keyword .elseWord) then
        let _ ← expectWord .elseWord
        let elseBody ← block (commands bound)
        let rest ← moreCommands (commands bound)
        return .ifThenElse keyword condition body.brackets body.commands elseBody.brackets
          elseBody.commands .unknown rest
      else
        let rest ← moreCommands (commands bound)
        return .ifThen keyword condition body.brackets body.commands .unknown rest
    | some kind =>
      if startsSimple kind then
        let command ← simpleCommand bound
        let rest ← moreCommands (commands bound)
        return .simple command .unknown rest
      else noCommands .commandOrEnd
    | none => noCommands .commandOrEnd

/-! ## Declarations -/

def varDecl (expected : Expected) : Parser VarDecl := do
  let (token, type) ← one expected fun token => (ValueType.ofKind? token.kind).map (token, ·)
  return ⟨token, type, ← variableName⟩

def globals : (bound : Nat) → Parser (List VarDecl)
  | 0 => return []
  | bound + 1 => do
    if ((← peek).bind ValueType.ofKind?).isSome then
      let decl ← varDecl .valueType
      if ← skipSign .comma then
        return decl :: (← globals bound)
      else return [decl]
    else return []

/-- A function up to the functions declared inside it; its closing `end` is still to read. -/
def functionHead (bound : Nat) : Parser (Token → FunctionDecl) := do
  let (token, type) ← one .returnType fun token => (ReturnType.ofKind? token.kind).map (token, ·)
  let name ← functionName
  let _ ← expectSign .lparen
  let firstParam ← variableName
  let _ ← expectSign .comma
  let secondParam ← variableName
  let _ ← expectSign .comma
  let thirdParam ← variableName
  let _ ← expectSign .rparen
  let _ ← expectSign .lbrace
  let firstLocal ← varDecl .localType
  let _ ← expectSign .comma
  let secondLocal ← varDecl .localType
  let _ ← expectSign .comma
  let thirdLocal ← varDecl .localType
  let _ ← expectSign .comma
  let body ← block (commands bound)
  let _ ← expectSign .rbrace
  return fun closing =>
    ⟨token, type, name, ⟨firstParam, secondParam, thirdParam⟩,
      ⟨firstLocal, secondLocal, thirdLocal⟩, body, closing⟩

def functions : (bound : Nat) → Parser (Forest FunctionDecl)
  | 0 => return .nil
  | bound + 1 => do
    if ((← peek).bind ReturnType.ofKind?).isSome then
      let head ← functionHead bound
      let inner ← functions bound
      let closing ← expectWord .endWord
      let rest ← functions bound
      return .cons (head closing) inner rest
    else return .nil

/-- The end of the tokens. -/
def endOfInput : Parser Unit
  | [] => .ok () []
  | tokens => .error (.token .eof) tokens

/-- `PROGRAM`, up to the end of the tokens. -/
def program (source : SourceText) (bound : Nat) : Parser Program := do
  let main ← expectWord .mainWord
  let globals ← globals bound
  let block ← block (commands bound)
  let functions ← functions bound
  endOfInput
  return ⟨main, globals, block, functions, source⟩

end Parser

/-! ## Whole programs -/

/-- The tokens that the grammar sees: no trivia, and nothing from the first end mark on. -/
def significant (tokens : List Token) : List Token :=
  (tokens.filter fun token => token.kind ≠ .trivia).takeWhile fun token => token.kind ≠ .eof

/-- Where reading ends: the first end mark, or else a mark right behind the last token. -/
def endMark (tokens : List Token) : Token :=
  match tokens.find? fun token => token.kind = .eof with
  | some mark => mark
  | none =>
    match tokens.getLast? with
    | some last =>
      ⟨.eof, last.file, ⟨last.pos.line, last.pos.column + last.lexeme.length⟩, ""⟩
    | none => ⟨.eof, "<input>", .start, ""⟩

/-- A token that cannot go on, with what could have stood there. -/
structure ParseError where
  expected : Expected
  found : Token
  sourceLine : String
  deriving DecidableEq, Repr

namespace ParseError

def render (e : ParseError) : String :=
  e.found.file ++ ":" ++ e.found.pos.render ++ ": error: expected " ++ e.expected.describe
    ++ ", found " ++ e.found.describe ++ "\n" ++ Text.excerpt e.sourceLine e.found.pos.column

end ParseError

/-- The program that the tokens spell, or the first token that cannot go on. -/
def parse (tokens : List Token) : Except ParseError Program :=
  let source : SourceText := ⟨tokens⟩
  let readable := significant tokens
  match Parser.program source (readable.length + 1) readable with
  | .ok program _ => .ok program
  | .error expected rest =>
    let found := rest.headD (endMark tokens)
    .error ⟨expected, found, source.line found.pos.line⟩

end SplBasic
