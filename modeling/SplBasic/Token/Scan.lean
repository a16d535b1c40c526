import SplBasic.Text.Blank
import SplBasic.Text.Line
import SplBasic.Token.Basic
import SplBasic.Token.Lexeme

/-!
# Scanning a text into tokens

A `Cursor` is a place in a text together with what is left to read. `Cursor.scan` reads tokens up to
the end of the text or up to the first chunk that is not a token; either way it says where reading
stopped, so that a caller can go on behind a fault.

* `Cursor.scan` : the tokens read, or the first fault, and the cursor left behind,
* `tokenize` : the tokens of a whole text, or its first fault as a `LexError`,
* `tokenizeCalls` : what repeated reading from one cursor gives.
-/

namespace SplBasic

/-- A place in a text and the characters from there on. -/
structure Cursor where
  rest : List Char
  pos : Position
  deriving DecidableEq, Repr

/-- What reading gives: tokens or a fault, and where it stopped. -/
structure ScanResult where
  tokens : Except (Located LexFault) (List Token)
  cursor : Cursor

namespace ScanResult

/-- The result of reading `token` first. -/
def prepend (token : Token) (result : ScanResult) : ScanResult :=
  ⟨result.tokens.map (token :: ·), result.cursor⟩

end ScanResult

/-- Reads the characters `cs`, the first of which stands at `pos`. Blanks are skipped; a chunk is
read whole before it is judged, so a fault leaves the cursor behind the chunk. -/
def scanFrom (file : String) (cs : List Char) (pos : Position) : ScanResult :=
  match cs with
  | [] => ⟨.ok [], ⟨[], pos⟩⟩
  | c :: cs =>
    if Text.isBlank c then scanFrom file cs (pos.advance c)
    else
      let tail := Lexeme.chunkTail c cs
      let rest := Lexeme.chunkRest c cs
      let behind := pos.advanceAll (c :: tail)
      match Lexeme.classify c tail with
      | .error fault => ⟨.error ⟨fault, pos⟩, ⟨rest, behind⟩⟩
      | .ok kind =>
        (scanFrom file rest behind).prepend ⟨kind, file, pos, String.ofList (c :: tail)⟩
termination_by cs.length
decreasing_by
  · simp
  · exact Nat.lt_succ_of_le (Lexeme.length_chunkRest_le _ _)

/-! ## One step of the scan -/

@[simp] theorem scanFrom_nil (file : String) (pos : Position) :
    scanFrom file [] pos = ⟨.ok [], ⟨[], pos⟩⟩ := by
  rw [scanFrom]

/-- A blank moves the cursor and nothing else. -/
theorem scanFrom_blank {file : String} {c : Char} {cs : List Char} {pos : Position}
    (blank : Text.isBlank c = true) :
    scanFrom file (c :: cs) pos = scanFrom file cs (pos.advance c) := by
  rw [scanFrom]
  simp [blank]

/-- A chunk that is a token comes first in the result. -/
theorem scanFrom_token {file : String} {c : Char} {cs : List Char} {pos : Position}
    {kind : TokenKind} (notBlank : Text.isBlank c = false)
    (spells : Lexeme.classify c (Lexeme.chunkTail c cs) = .ok kind) :
    scanFrom file (c :: cs) pos =
      (scanFrom file (Lexeme.chunkRest c cs) (pos.advanceAll (c :: Lexeme.chunkTail c cs))).prepend
        ⟨kind, file, pos, String.ofList (c :: Lexeme.chunkTail c cs)⟩ := by
  rw [scanFrom]
  simp [notBlank, spells]

/-- A chunk that is no token ends the scan, with the cursor behind it. -/
theorem scanFrom_fault {file : String} {c : Char} {cs : List Char} {pos : Position}
    {fault : LexFault} (notBlank : Text.isBlank c = false)
    (spells : Lexeme.classify c (Lexeme.chunkTail c cs) = .error fault) :
    scanFrom file (c :: cs) pos =
      ⟨.error ⟨fault, pos⟩,
        ⟨Lexeme.chunkRest c cs, pos.advanceAll (c :: Lexeme.chunkTail c cs)⟩⟩ := by
  rw [scanFrom]
  simp [notBlank, spells]

/-! ## Reading texts -/

namespace Cursor

def ofText (text : String) : Cursor :=
  ⟨text.toList, .start⟩

/-- Reads tokens from the cursor on. -/
def scan (file : String) (cursor : Cursor) : ScanResult :=
  scanFrom file cursor.rest cursor.pos

end Cursor

/-- A fault in a text, with the line it stands on. -/
structure LexError where
  fault : LexFault
  file : String
  pos : Position
  sourceLine : String
  deriving DecidableEq, Repr

namespace LexError

/-- A fault of `text` with the line that it stands on. -/
def ofFault (text file : String) (fault : Located LexFault) : LexError :=
  ⟨fault.cause, file, fault.pos, String.ofList (Text.line text.toList fault.pos.line)⟩

def render (e : LexError) : String :=
  e.file ++ ":" ++ e.pos.render ++ ": error: " ++ e.fault.message ++ "\n"
    ++ Text.excerpt e.sourceLine e.pos.column

end LexError

/-- The results of `calls` readings of `text`, each from where the one before it stopped. -/
def tokenizeCalls (text file : String) (calls : Nat) : List (Except LexError (List Token)) :=
  go calls (.ofText text)
where
  go : Nat → Cursor → List (Except LexError (List Token))
    | 0, _ => []
    | n + 1, cursor =>
      let result := cursor.scan file
      result.tokens.mapError (LexError.ofFault text file) :: go n result.cursor

def tokenize (text file : String) : Except LexError (List Token) :=
  ((Cursor.ofText text).scan file).tokens.mapError (LexError.ofFault text file)

end SplBasic
