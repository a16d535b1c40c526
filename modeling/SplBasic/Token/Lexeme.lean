import SplBasic.Token.Kind

/-!
# Lexemes

A text falls into blanks and *chunks*. The first character of a chunk tells how far it reaches:

* `"` : to the next `"`, or to the end of the line if there is none on it,
* a digit or `-` : over all digits and points that follow,
* a letter or `_` : over all letters, digits and `_` that follow,
* anything else : one character.

`chunkTail` and `chunkRest` split a text behind such a first character. `classify` then decides
which token, if any, a chunk spells. A chunk that spells none is a `LexFault`.
-/

namespace SplBasic

namespace Lexeme

/-- Characters that may stand between the quotes of a text literal. -/
def isTextChar (c : Char) : Bool :=
  c != '"' && c != '\n'

/-- Characters that open a number chunk. -/
def startsNumber (c : Char) : Bool :=
  c.isDigit || c == '-'

def isNumberChar (c : Char) : Bool :=
  c.isDigit || c == '.'

/-- Characters that open a word chunk: ASCII letters and the underscore. -/
def startsWord (c : Char) : Bool :=
  c.isAlpha || c == '_'

def isWordChar (c : Char) : Bool :=
  c.isAlphanum || c == '_'

/-! ## Chunks -/

/-- The quote that closes a text literal, if it comes next. -/
def closingQuote : List Char → List Char
  | '"' :: _ => ['"']
  | _ => []

/-- What follows the first character `c` of a chunk inside the chunk, when `cs` follows in the
text. -/
def chunkTail (c : Char) (cs : List Char) : List Char :=
  if c = '"' then cs.takeWhile isTextChar ++ closingQuote (cs.dropWhile isTextChar)
  else if startsNumber c then cs.takeWhile isNumberChar
  else if startsWord c then cs.takeWhile isWordChar
  else []

/-- What follows the chunk that `c` opens, when `cs` follows `c` in the text. -/
def chunkRest (c : Char) (cs : List Char) : List Char :=
  cs.drop (chunkTail c cs).length

/-- A chunk without its first character starts the text behind that character. -/
theorem chunkTail_isPrefix (c : Char) (cs : List Char) : chunkTail c cs <+: cs := by
  have run (p : Char → Bool) : cs.takeWhile p <+: cs :=
    ⟨cs.dropWhile p, List.takeWhile_append_dropWhile⟩
  unfold chunkTail
  split
  · have whole := List.takeWhile_append_dropWhile (p := isTextChar) (l := cs)
    generalize cs.dropWhile isTextChar = behind at *
    unfold closingQuote
    split
    · rename_i rest
      exact ⟨rest, by simpa using whole⟩
    · exact ⟨behind, by simpa using whole⟩
  · split
    · exact run _
    · split
      · exact run _
      · exact ⟨cs, rfl⟩

/-- A chunk and what follows it make up the text. -/
theorem chunkTail_append_chunkRest (c : Char) (cs : List Char) :
    chunkTail c cs ++ chunkRest c cs = cs :=
  List.prefix_iff_eq_append.mp (chunkTail_isPrefix c cs)

/-- The text left behind a chunk is no longer than the text behind its first character. -/
theorem length_chunkRest_le (c : Char) (cs : List Char) : (chunkRest c cs).length ≤ cs.length := by
  simp [chunkRest]

/-! ## Classes of lexemes -/

/-- A whole part: `0`, or digits that do not start with `0`. -/
def isWholePart (digits : List Char) : Bool :=
  digits == ['0'] || (digits.head? != some '0' && digits != [] && digits.all Char.isDigit)

/-- A fraction: digits that do not end in `0`. -/
def isFraction (digits : List Char) : Bool :=
  digits != [] && digits.all Char.isDigit && digits.getLast? != some '0'

/-- An unsigned numeral; the point, if there is one, divides it. -/
def isNumeral (cs : List Char) : Bool :=
  isWholePart (cs.takeWhile (· != '.')) &&
    match cs.dropWhile (· != '.') with
    | [] => true
    | _ :: fraction => isFraction fraction

/-- A number literal: a numeral, or `-` and a numeral other than `0`. -/
def isNumber : List Char → Bool
  | '-' :: cs => isNumeral cs && cs != ['0']
  | cs => isNumeral cs

/-- A text literal: characters between two quotes. -/
def isText : List Char → Bool
  | '"' :: cs => cs.getLast? == some '"' && cs.dropLast.all isTextChar
  | _ => false

/-- A bare name: a small letter, then small letters and digits. -/
def isBareName : List Char → Bool
  | c :: cs => c.isLower && cs.all fun d => d.isLower || d.isDigit
  | [] => false

/-- A variable name: `V_` and a bare name. -/
def isVarName : List Char → Bool
  | 'V' :: '_' :: cs => isBareName cs
  | _ => false

/-- A function name: `F_` and a bare name. -/
def isFunName : List Char → Bool
  | 'F' :: '_' :: cs => isBareName cs
  | _ => false

end Lexeme

/-- Why a chunk is not a token. -/
inductive LexFault
  | unterminatedText
  | invalidNumber (lexeme : String)
  | unrecognizedWord (lexeme : String)
  | disallowedCharacter (c : Char)
  deriving DecidableEq, Repr

namespace LexFault

def message : LexFault → String
  | unterminatedText => "unterminated text literal"
  | invalidNumber lexeme => "invalid number literal '" ++ lexeme ++ "'"
  | unrecognizedWord lexeme => "unrecognized word '" ++ lexeme ++ "'"
  | disallowedCharacter c => "disallowed character '" ++ c.toString ++ "'"

end LexFault

namespace Lexeme

/-- The kind of a word chunk: reserved words first, then names. -/
def classifyWord (cs : List Char) : Except LexFault TokenKind :=
  match TokenKind.ofWord? (String.ofList cs) with
  | some kind => .ok kind
  | none =>
    if isVarName cs then .ok .varName
    else if isFunName cs then .ok .funName
    else .error (.unrecognizedWord (String.ofList cs))

/-- The kind of the token that the chunk `c :: cs` spells. -/
def classify (c : Char) (cs : List Char) : Except LexFault TokenKind :=
  if c = '"' then
    if isText (c :: cs) then .ok .textLit else .error .unterminatedText
  else if startsNumber c then
    if isNumber (c :: cs) then .ok .numLit else .error (.invalidNumber (String.ofList (c :: cs)))
  else if startsWord c then classifyWord (c :: cs)
  else
    match Punctuation.ofSymbol? c with
    | some p => .ok (.punctuation p)
    | none => .error (.disallowedCharacter c)

end Lexeme

end SplBasic
