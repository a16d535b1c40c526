import SplBasic.Proofs.LexicalGrammar

/-!
# The scanner is exact and loses nothing

A `Decomposition` divides a text into blanks and tokens. `Decomposition.Divides` says which ones are
right: nothing of the text is left out, every lexeme is a spelling of its kind that does not go on
behind its end, and every token tells its file and the place of its first character.

* `tokenize_eq_ok_iff_divides` : scanning gives the tokens of such a decomposition and of no other,
  and a text has at most one.
-/

namespace SplBasic

namespace Text

/-! ## Places -/

/-- The place right behind the characters `before` of a text. Only line feeds end lines. -/
def place (before : List Char) : Position :=
  ⟨before.count '\n' + 1, (before.reverse.takeWhile (· != '\n')).length + 1⟩

theorem place_concat (before : List Char) (c : Char) :
    place (before ++ [c]) = (place before).advance c := by
  by_cases feed : c = '\n'
  · simp [place, Position.advance, feed]
  · simp [place, Position.advance, feed]

/-- Reading on moves a place as counting the characters does. -/
theorem place_append (before cs : List Char) :
    place (before ++ cs) = (place before).advanceAll cs := by
  induction cs generalizing before with
  | nil =>
    rw [List.append_nil]
    rfl
  | cons c cs ih =>
    calc place (before ++ c :: cs) = place ((before ++ [c]) ++ cs) := by simp
      _ = (place (before ++ [c])).advanceAll cs := ih (before ++ [c])
      _ = (place before).advanceAll (c :: cs) := by rw [place_concat, Position.advanceAll_cons]

end Text

/-! ## Decompositions -/

/-- Tokens, each with the blanks in front of it, and the blanks behind the last one. -/
structure Decomposition where
  pieces : List (List Char × Token)
  trailing : List Char

namespace Decomposition

def charsOf (pieces : List (List Char × Token)) : List Char :=
  pieces.flatMap fun piece => piece.1 ++ piece.2.lexeme.toList

def tokens (d : Decomposition) : List Token :=
  d.pieces.map Prod.snd

/-- The decomposition is the one of `text`, which stands behind the characters `before` of a
file. -/
structure Divides (d : Decomposition) (file : String) (before text : List Char) : Prop where
  whole : charsOf d.pieces ++ d.trailing = text
  blanks : ∀ piece ∈ d.pieces, ∀ c ∈ piece.1, Text.isBlank c = true
  trailingBlanks : ∀ c ∈ d.trailing, Text.isBlank c = true
  spelt : ∀ piece ∈ d.pieces, piece.2.lexeme.toList ∈ Lexeme.spellings piece.2.kind
  ends : ∀ front piece behind, d.pieces = front ++ piece :: behind →
    ∀ c ∈ (charsOf behind ++ d.trailing).head?, Lexeme.continues piece.2.kind c = false
  located : ∀ front piece behind, d.pieces = front ++ piece :: behind →
    piece.2.file = file ∧ piece.2.pos = Text.place (before ++ (charsOf front ++ piece.1))

variable {file : String} {before text : List Char}

theorem charsOf_cons (piece : List Char × Token) (pieces : List (List Char × Token)) :
    charsOf (piece :: pieces) = piece.1 ++ piece.2.lexeme.toList ++ charsOf pieces := rfl

/-- A text without tokens is blank. -/
theorem divides_nil_iff {trailing : List Char} :
    Divides ⟨[], trailing⟩ file before text ↔
      trailing = text ∧ ∀ c ∈ trailing, Text.isBlank c = true := by
  constructor
  · intro divides
    exact ⟨divides.whole, divides.trailingBlanks⟩
  · rintro ⟨rfl, blank⟩
    exact ⟨rfl, by simp, blank, by simp, by simp, by simp⟩

/-- The first piece, and the rest as a decomposition of what follows it. -/
theorem divides_cons_iff {gap : List Char} {t : Token} {pieces : List (List Char × Token)}
    {trailing : List Char} :
    Divides ⟨(gap, t) :: pieces, trailing⟩ file before text ↔
      ∃ rest, text = gap ++ (t.lexeme.toList ++ rest) ∧ (∀ c ∈ gap, Text.isBlank c = true) ∧
        t.lexeme.toList ∈ Lexeme.spellings t.kind ∧
        (∀ c ∈ rest.head?, Lexeme.continues t.kind c = false) ∧
        t.file = file ∧ t.pos = Text.place (before ++ gap) ∧
        Divides ⟨pieces, trailing⟩ file (before ++ (gap ++ t.lexeme.toList)) rest := by
  constructor
  · intro divides
    -- what is said of every split of the pieces is said of the one in front of the first piece
    refine ⟨charsOf pieces ++ trailing, ?_, ?_, ?_, ?_, ?_, ?_, ?_⟩
    · rw [← divides.whole, charsOf_cons]
      simp
    · exact divides.blanks (gap, t) (by simp)
    · exact divides.spelt (gap, t) (by simp)
    · exact divides.ends [] (gap, t) pieces rfl
    · exact (divides.located [] (gap, t) pieces rfl).1
    · simpa [charsOf] using (divides.located [] (gap, t) pieces rfl).2
    · -- a split of the later pieces is a split of all, with the first piece in front
      refine ⟨rfl, ?_, divides.trailingBlanks, ?_, ?_, ?_⟩
      · exact fun piece member => divides.blanks piece (by simp [member])
      · exact fun piece member => divides.spelt piece (by simp [member])
      · rintro front piece behind rfl
        exact divides.ends ((gap, t) :: front) piece behind rfl
      · rintro front piece behind rfl
        simpa [charsOf_cons] using divides.located ((gap, t) :: front) piece behind rfl
  · rintro ⟨rest, rfl, blank, spelt, ends, file, pos, divides⟩
    refine ⟨?_, ?_, divides.trailingBlanks, ?_, ?_, ?_⟩
    · rw [charsOf_cons, ← divides.whole]
      simp
    · rintro piece member
      rcases List.mem_cons.1 member with rfl | later
      · exact blank
      · exact divides.blanks piece later
    · rintro piece member
      rcases List.mem_cons.1 member with rfl | later
      · exact spelt
      · exact divides.spelt piece later
    · rintro front piece behind split
      cases front with
      | nil =>
        cases split
        rw [divides.whole]
        exact ends
      | cons first front =>
        cases split
        exact divides.ends front piece behind rfl
    · rintro front piece behind split
      cases front with
      | nil =>
        cases split
        exact ⟨file, by simpa [charsOf] using pos⟩
      | cons first front =>
        cases split
        simpa [charsOf_cons] using divides.located front piece behind rfl

/-- A blank in front of a text belongs to the first gap. -/
theorem Divides.cons_blank {d : Decomposition} {c : Char} (blank : Text.isBlank c = true)
    (divides : d.Divides file (before ++ [c]) text) :
    ∃ d' : Decomposition, d'.Divides file before (c :: text) ∧ d'.tokens = d.tokens := by
  rcases d with ⟨pieces, trailing⟩
  cases pieces with
  | nil =>
    rcases divides_nil_iff.1 divides with ⟨rfl, blanks⟩
    exact ⟨⟨[], c :: trailing⟩, divides_nil_iff.2 ⟨rfl, by simpa [blank] using blanks⟩, rfl⟩
  | cons piece pieces =>
    rcases piece with ⟨gap, t⟩
    rcases divides_cons_iff.1 divides with ⟨rest, rfl, blanks, spelt, ends, inFile, pos, divides⟩
    refine ⟨⟨(c :: gap, t) :: pieces, trailing⟩, divides_cons_iff.2 ⟨rest, rfl, ?_, spelt, ends,
      inFile, ?_, ?_⟩, rfl⟩
    · simpa [blank] using blanks
    · simpa using pos
    · simpa using divides

/-! ## Scans are decompositions -/

/-- A scan divides the text, by induction along it. -/
theorem exists_divides_of_scans {pos : Position} {tokens : List Token}
    (scans : Scans file text pos tokens) (here : pos = Text.place before) :
    ∃ d : Decomposition, d.Divides file before text ∧ d.tokens = tokens := by
  induction scans generalizing before with
  | done pos => exact ⟨⟨[], []⟩, divides_nil_iff.2 ⟨rfl, by simp⟩, rfl⟩
  | @blank c cs pos tokens blank _ ih =>
    have there : pos.advance c = Text.place (before ++ [c]) := by
      rw [here, Text.place_concat]
    rcases ih there with ⟨d, divides, same⟩
    rcases divides.cons_blank blank with ⟨d', divides', same'⟩
    exact ⟨d', divides', same'.trans same⟩
  | @token c cs pos tokens kind notBlank spells _ ih =>
    have whole := Lexeme.chunkTail_append_chunkRest c cs
    have asChunk : Lexeme.chunkTail c (Lexeme.chunkTail c cs ++ Lexeme.chunkRest c cs) =
        Lexeme.chunkTail c cs := by
      rw [whole]
    -- the lexer judges a chunk after cutting it off; the grammar asks that the lexeme does not go
    -- on
    have lexeme := Lexeme.chunk_iff.1 ⟨asChunk, spells⟩
    have there : pos.advanceAll (c :: Lexeme.chunkTail c cs) =
        Text.place (before ++ (c :: Lexeme.chunkTail c cs)) := by
      rw [here, Text.place_append]
    rcases ih there with ⟨⟨pieces, trailing⟩, divides, rfl⟩
    refine ⟨⟨([], ⟨kind, file, pos, String.ofList (c :: Lexeme.chunkTail c cs)⟩) :: pieces,
      trailing⟩, divides_cons_iff.2 ⟨Lexeme.chunkRest c cs, ?_, by simp, ?_, ?_, rfl, ?_, ?_⟩, rfl⟩
    · simp [whole]
    · simpa using lexeme.1
    · exact lexeme.2
    · simpa using here
    · simpa using divides

/-! ## Decompositions are scans -/

/-- Blanks in front of a text do not change its tokens. -/
theorem scans_append_of_blanks {gap : List Char} {pos : Position} {tokens : List Token}
    (blanks : ∀ c ∈ gap, Text.isBlank c = true)
    (scans : Scans file text (pos.advanceAll gap) tokens) :
    Scans file (gap ++ text) pos tokens := by
  induction gap generalizing pos with
  | nil => exact scans
  | cons c gap ih =>
    refine .blank (blanks c (by simp)) (ih (fun d member => blanks d (by simp [member])) ?_)
    exact scans

/-- A lexeme that does not go on is read in one step. -/
theorem scans_of_lexeme {t : Token} {rest : List Char} {pos : Position} {tokens : List Token}
    (spelt : t.lexeme.toList ∈ Lexeme.spellings t.kind)
    (ends : ∀ c ∈ rest.head?, Lexeme.continues t.kind c = false) (inFile : t.file = file)
    (here : t.pos = pos) (scans : Scans file rest (pos.advanceAll t.lexeme.toList) tokens) :
    Scans file (t.lexeme.toList ++ rest) pos (t :: tokens) := by
  rcases t with ⟨kind, tokenFile, tokenPos, lexeme⟩
  subst inFile here
  rcases Lexeme.exists_opens_of_spelling spelt with ⟨c, cs, chars, _⟩
  simp only at chars spelt ends scans ⊢
  rw [chars] at spelt scans ⊢
  -- a lexeme that does not go on is what the lexer cuts off
  rcases Lexeme.chunk_iff.2 ⟨spelt, ends⟩ with ⟨chunk, spells⟩
  have behind : Lexeme.chunkRest c (cs ++ rest) = rest := by
    simp [Lexeme.chunkRest, chunk]
  have step : Scans tokenFile (c :: (cs ++ rest)) tokenPos
      (⟨kind, tokenFile, tokenPos, String.ofList (c :: Lexeme.chunkTail c (cs ++ rest))⟩ ::
        tokens) := by
    refine .token (Lexeme.isBlank_eq_false_of_spelling spelt) ?_ ?_
    · rw [chunk]
      exact spells
    · rw [behind, chunk]
      exact scans
  rw [chunk, ← chars, String.ofList_toList] at step
  exact step

/-- A divided text is scanned, piece by piece. -/
theorem Divides.scans {d : Decomposition} (divides : d.Divides file before text) :
    Scans file text (Text.place before) d.tokens := by
  rcases d with ⟨pieces, trailing⟩
  induction pieces generalizing before text with
  | nil =>
    rcases divides_nil_iff.1 divides with ⟨rfl, blanks⟩
    have scans : Scans file (trailing ++ []) (Text.place before) [] :=
      scans_append_of_blanks blanks (.done _)
    simpa [tokens] using scans
  | cons piece pieces ih =>
    rcases piece with ⟨gap, t⟩
    rcases divides_cons_iff.1 divides with ⟨rest, rfl, blanks, spelt, ends, inFile, pos, divides⟩
    apply scans_append_of_blanks blanks
    rw [← Text.place_append]
    -- the later pieces start behind the gap and the lexeme of this one
    have scans := ih divides
    rw [← List.append_assoc, Text.place_append] at scans
    exact scans_of_lexeme spelt ends inFile pos scans

/-! ## Uniqueness -/

/-- The blanks in front of a lexeme are all blanks up to the first other character. -/
theorem gap_eq_takeWhile {gap lexeme rest : List Char} {kind : TokenKind}
    (blanks : ∀ c ∈ gap, Text.isBlank c = true) (spelt : lexeme ∈ Lexeme.spellings kind) :
    (gap ++ (lexeme ++ rest)).takeWhile Text.isBlank = gap := by
  rcases Lexeme.exists_opens_of_spelling spelt with ⟨c, cs, rfl, _⟩
  refine Lexeme.takeWhile_append_eq_left_iff.2 ⟨blanks, ?_⟩
  intro d first
  cases first
  exact Lexeme.isBlank_eq_false_of_spelling spelt

/-- A text has at most one decomposition. -/
theorem Divides.unique {d d' : Decomposition} (divides : d.Divides file before text)
    (divides' : d'.Divides file before text) : d = d' := by
  have sameTokens : d.tokens = d'.tokens := by
    have read := scanFrom_of_scans divides.scans
    rw [scanFrom_of_scans divides'.scans] at read
    exact (Except.ok.inj read).symm
  -- with the tokens known, only the gaps are left, and each is the whole run of blanks at its place
  rcases d with ⟨pieces, trailing⟩
  rcases d' with ⟨pieces', trailing'⟩
  induction pieces generalizing pieces' before text with
  | nil =>
    cases pieces' with
    | nil =>
      rcases divides_nil_iff.1 divides with ⟨rfl, _⟩
      rcases divides_nil_iff.1 divides' with ⟨rfl, _⟩
      rfl
    | cons piece' pieces' => cases sameTokens
  | cons piece pieces ih =>
    cases pieces' with
    | nil => cases sameTokens
    | cons piece' pieces' =>
      rcases piece with ⟨gap, t⟩
      rcases piece' with ⟨gap', t'⟩
      rcases List.cons.inj sameTokens with ⟨sameToken, sameLater⟩
      simp only at sameToken
      subst sameToken
      rcases divides_cons_iff.1 divides with ⟨rest, rfl, blanks, spelt, _, _, _, divides⟩
      rcases divides_cons_iff.1 divides' with ⟨rest', same, blanks', _, _, _, _, divides'⟩
      have sameGap : gap = gap' :=
        calc gap = (gap ++ (t.lexeme.toList ++ rest)).takeWhile Text.isBlank :=
              (gap_eq_takeWhile blanks spelt).symm
          _ = (gap' ++ (t.lexeme.toList ++ rest')).takeWhile Text.isBlank := by rw [same]
          _ = gap' := gap_eq_takeWhile blanks' spelt
      subst sameGap
      have sameRest : rest = rest' := by simpa using same
      subst sameRest
      have samePieces := ih divides pieces' divides' sameLater
      cases samePieces
      rfl

end Decomposition

/-- Every token of a text is spelt as tokens of its kind are. -/
theorem spelling_of_tokenize {text file : String} {tokens : List Token}
    (read : tokenize text file = .ok tokens) :
    ∀ t ∈ tokens, t.lexeme.toList ∈ Lexeme.spellings t.kind := by
  have start : Position.start = Text.place [] := rfl
  rcases Decomposition.exists_divides_of_scans (scans_of_tokenize read) start with ⟨d, divides, rfl⟩
  intro t member
  rcases List.mem_map.1 member with ⟨piece, listed, rfl⟩
  exact divides.spelt piece listed

open Decomposition in
/-- Scanning a text gives the tokens of its decomposition, and fails if there is none. A text has at
most one decomposition. -/
theorem tokenize_eq_ok_iff_divides (text file : String) :
    (∀ tokens, tokenize text file = .ok tokens ↔
      ∃ d : Decomposition, d.Divides file [] text.toList ∧ d.tokens = tokens) ∧
    {d : Decomposition | d.Divides file [] text.toList}.Subsingleton := by
  refine ⟨?_, ?_⟩
  · intro tokens
    constructor
    · intro read
      exact exists_divides_of_scans (scans_of_tokenize read) rfl
    · rintro ⟨d, divides, rfl⟩
      exact tokenize_of_scans divides.scans
  · intro d divides d' divides'
    exact divides.unique divides'

end SplBasic
