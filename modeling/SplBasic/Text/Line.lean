/-!
# Lines of a text

A line ends at a line feed only; a carriage return right before that line feed belongs to the line
end. Columns count characters from 1.

* `pieces` : a text cut at every separator,
* `lines` : the lines of a text,
* `line` : the line of a given number,
* `excerpt` : a line with a caret below one of its columns.
-/

namespace SplBasic.Text

/-- The pieces between separators; a text with `n` separators has `n + 1` pieces. -/
def pieces (separator : Char) : List Char → List (List Char)
  | [] => [[]]
  | c :: cs =>
    if c = separator then [] :: pieces separator cs
    else
      match pieces separator cs with
      | [] => [[c]]
      | piece :: rest => (c :: piece) :: rest

/-- A piece that a line feed follows, without the carriage return that may precede it. -/
def stripReturn (piece : List Char) : List Char :=
  if piece.getLast? = some '\r' then piece.dropLast else piece

/-- The lines among the pieces of a text. What stands behind the last line feed is a line only if it
is not empty, and keeps its last carriage return. -/
def linesOfPieces : List (List Char) → List (List Char)
  | [] => []
  | [last] => if last = [] then [] else [last]
  | piece :: rest => stripReturn piece :: linesOfPieces rest

/-- The lines of a text. -/
def lines (text : List Char) : List (List Char) :=
  linesOfPieces (pieces '\n' text)

/-- Line `n` of a text, counted from 1; empty if there is none. -/
def line (text : List Char) (n : Nat) : List Char :=
  ((lines text)[n - 1]?).getD []

/-- A run of `n` spaces. -/
def spaces (n : Nat) : String :=
  String.ofList (List.replicate n ' ')

/-- `text` filled up with spaces on the right to at least `width` characters. -/
def padRight (width : Nat) (text : String) : String :=
  text ++ spaces (width - text.length)

/-- A source line and, below it, a caret under `column`. Column 0 is shown as column 1. -/
def excerpt (sourceLine : String) (column : Nat) : String :=
  sourceLine ++ "\n" ++ spaces (column - 1) ++ "^"

end SplBasic.Text
