import Mathlib.Data.List.Basic
import SplBasic.Token.Scan

/-!
# Tokens of a text

What the tokens of a text have that tokens from elsewhere need not have:

* `pairwise_before_of_tokenize` : they stand one behind the other, so no two share a place,
* `mark_of_tokenize` : names carry the mark of their kind in front of a bare name.

Both go by induction on `Scans`, the successful scans as a relation.
-/

namespace SplBasic

/-! ## Order of positions -/

namespace Position

/-- A place comes before another one in reading order. -/
def Before (p q : Position) : Prop :=
  p.line < q.line ∨ p.line = q.line ∧ p.column < q.column

theorem Before.trans {p q r : Position} (first : p.Before q) (second : q.Before r) :
    p.Before r := by
  simp only [Before] at *
  omega

theorem Before.ne {p q : Position} (before : p.Before q) : p ≠ q := by
  rintro rfl
  simp only [Before] at before
  omega

/-- A character moves the place forward. -/
theorem before_advance (pos : Position) (c : Char) : pos.Before (pos.advance c) := by
  simp only [Before, advance]
  split
  · exact .inl (Nat.lt_succ_self _)
  · exact .inr ⟨rfl, Nat.lt_succ_self _⟩

/-- Reading on never leads back. -/
theorem before_advanceAll (pos : Position) (c : Char) (cs : List Char) :
    pos.Before (pos.advanceAll (c :: cs)) := by
  induction cs generalizing pos c with
  | nil => exact before_advance pos c
  | cons d cs ih => exact (before_advance pos c).trans (ih (pos.advance c) d)

end Position

/-! ## Successful scans -/

/-- A text, the first character of which stands at `pos`, falls into blanks and the given
tokens. -/
inductive Scans (file : String) : List Char → Position → List Token → Prop
  | done (pos : Position) : Scans file [] pos []
  | blank {c : Char} {cs : List Char} {pos : Position} {tokens : List Token} :
      Text.isBlank c = true → Scans file cs (pos.advance c) tokens →
      Scans file (c :: cs) pos tokens
  | token {c : Char} {cs : List Char} {pos : Position} {tokens : List Token} {kind : TokenKind} :
      Text.isBlank c = false → Lexeme.classify c (Lexeme.chunkTail c cs) = .ok kind →
      Scans file (Lexeme.chunkRest c cs) (pos.advanceAll (c :: Lexeme.chunkTail c cs)) tokens →
      Scans file (c :: cs) pos
        (⟨kind, file, pos, String.ofList (c :: Lexeme.chunkTail c cs)⟩ :: tokens)

/-- What the lexer returns is what a scan gives, by induction along the text. -/
theorem scans_of_scanFrom {file : String} (cs : List Char) (pos : Position) {tokens : List Token}
    (scanned : (scanFrom file cs pos).tokens = .ok tokens) : Scans file cs pos tokens := by
  -- a chunk can be longer than one character, so the recursion is on the length of the text
  induction size : cs.length using Nat.strongRecOn generalizing cs pos tokens with
  | ind n ih =>
    subst size
    cases cs with
    | nil =>
      rw [scanFrom_nil] at scanned
      cases scanned
      exact .done pos
    | cons c cs =>
      cases blank : Text.isBlank c with
      | true =>
        rw [scanFrom_blank blank] at scanned
        exact .blank blank (ih cs.length (by simp) cs _ scanned rfl)
      | false =>
        cases spells : Lexeme.classify c (Lexeme.chunkTail c cs) with
        | error fault =>
          rw [scanFrom_fault blank spells] at scanned
          cases scanned
        | ok kind =>
          rw [scanFrom_token blank spells] at scanned
          simp only [ScanResult.prepend] at scanned
          cases rest : (scanFrom file (Lexeme.chunkRest c cs)
              (pos.advanceAll (c :: Lexeme.chunkTail c cs))).tokens with
          | error fault =>
            rw [rest] at scanned
            cases scanned
          | ok more =>
            rw [rest] at scanned
            cases scanned
            have shorter := Lexeme.length_chunkRest_le c cs
            exact .token blank spells (ih _ (by simpa using Nat.lt_succ_of_le shorter) _ _ rest rfl)

/-- The scan of a text starts at its first place. -/
theorem scans_of_tokenize {text file : String} {tokens : List Token}
    (read : tokenize text file = .ok tokens) : Scans file text.toList .start tokens := by
  refine scans_of_scanFrom _ _ ?_
  have mapped : (scanFrom file text.toList .start).tokens.mapError (LexError.ofFault text file) =
      .ok tokens := read
  cases result : (scanFrom file text.toList .start).tokens with
  | error fault =>
    rw [result] at mapped
    cases mapped
  | ok found =>
    rw [result] at mapped
    cases mapped
    rfl

/-- The relation describes the function: what can be scanned is what the scan gives. -/
theorem scanFrom_of_scans {file : String} {cs : List Char} {pos : Position} {tokens : List Token}
    (scans : Scans file cs pos tokens) : (scanFrom file cs pos).tokens = .ok tokens := by
  induction scans with
  | done pos => rw [scanFrom_nil]
  | blank blank _ ih =>
    rw [scanFrom_blank blank]
    exact ih
  | token notBlank spells _ ih =>
    rw [scanFrom_token notBlank spells, ScanResult.prepend]
    simp only [ih, Except.map]

/-- The lexer finds every scan. -/
theorem tokenize_of_scans {text file : String} {tokens : List Token}
    (scans : Scans file text.toList .start tokens) : tokenize text file = .ok tokens := by
  have read := scanFrom_of_scans scans
  simp [tokenize, Cursor.scan, Cursor.ofText, read, Except.mapError]

namespace Scans

variable {file : String} {cs : List Char} {pos : Position} {tokens : List Token}

/-- No token stands before the place where a scan starts. -/
theorem start_le (scans : Scans file cs pos tokens) :
    ∀ t ∈ tokens, pos = t.pos ∨ pos.Before t.pos := by
  induction scans with
  | done pos => simp
  | blank _ _ ih =>
    intro t member
    right
    rcases ih t member with same | before
    · exact same ▸ Position.before_advance _ _
    · exact (Position.before_advance _ _).trans before
  | token _ _ _ ih =>
    intro t member
    rcases List.mem_cons.1 member with rfl | later
    · exact .inl rfl
    · right
      rcases ih t later with same | before
      · exact same ▸ Position.before_advanceAll _ _ _
      · exact (Position.before_advanceAll _ _ _).trans before

/-- Tokens stand one behind the other. -/
theorem pairwise_before (scans : Scans file cs pos tokens) :
    tokens.Pairwise fun a b => a.pos.Before b.pos := by
  induction scans with
  | done pos => exact .nil
  | blank _ _ ih => exact ih
  | token _ _ rest ih =>
    refine List.pairwise_cons.2 ⟨fun t member => ?_, ih⟩
    -- the scan goes on behind this token, and no later token stands before that place
    rcases rest.start_le t member with same | before
    · exact same ▸ Position.before_advanceAll _ _ _
    · exact (Position.before_advanceAll _ _ _).trans before

end Scans

/-- The tokens of a text stand one behind the other. -/
theorem pairwise_before_of_tokenize {text file : String} {tokens : List Token}
    (read : tokenize text file = .ok tokens) :
    tokens.Pairwise fun a b => a.pos.Before b.pos :=
  (scans_of_tokenize read).pairwise_before

/-! ## Names and their marks -/

namespace Lexeme

/-- No word with a fixed meaning is a name. -/
theorem ofWord?_not_name {word : String} {kind : TokenKind}
    (found : TokenKind.ofWord? word = some kind) : kind ≠ .varName ∧ kind ≠ .funName := by
  have all : ∀ entry ∈ TokenKind.reservedWords, entry.2 ≠ .varName ∧ entry.2 ≠ .funName := by
    decide
  rcases List.lookup_eq_some_iff.1 found with ⟨before, after, split, _⟩
  exact all (word, kind) (by simp [split])

/-- The characters have the shape that a kind asks of names. -/
def HasShape (cs : List Char) (kind : TokenKind) : Prop :=
  (kind = .varName → isVarName cs = true) ∧ (kind = .funName → isFunName cs = true)

theorem hasShape_of_not_name {cs : List Char} {kind : TokenKind}
    (notName : kind ≠ .varName ∧ kind ≠ .funName) : HasShape cs kind :=
  ⟨fun same => absurd same notName.1, fun same => absurd same notName.2⟩

/-- Names have the shape that their kind asks for. -/
theorem hasShape_of_classifyWord {cs : List Char} {kind : TokenKind}
    (spells : classifyWord cs = .ok kind) : HasShape cs kind := by
  unfold classifyWord at spells
  -- reserved words come first, so that a name never has the spelling of one
  cases found : TokenKind.ofWord? (String.ofList cs) with
  | some reserved =>
    simp only [found, Except.ok.injEq] at spells
    exact hasShape_of_not_name (spells ▸ ofWord?_not_name found)
  | none =>
    rw [found] at spells
    by_cases variableName : isVarName cs = true
    · simp only [variableName, if_true, Except.ok.injEq] at spells
      subst spells
      exact ⟨fun _ => variableName, fun same => (by cases same)⟩
    · by_cases functionName : isFunName cs = true
      · simp only [variableName, functionName, if_true, if_false, Except.ok.injEq,
          Bool.false_eq_true] at spells
        subst spells
        exact ⟨fun same => (by cases same), fun _ => functionName⟩
      · simp [variableName, functionName] at spells

/-- A chunk is read as a name only if it has the shape of one. -/
theorem hasShape_of_classify {c : Char} {cs : List Char} {kind : TokenKind}
    (spells : classify c cs = .ok kind) : HasShape (c :: cs) kind := by
  unfold classify at spells
  -- only words can be names: texts, numbers and signs have kinds of their own
  split at spells
  · split at spells
    · cases spells
      exact hasShape_of_not_name (by decide)
    · cases spells
  · split at spells
    · split at spells
      · cases spells
        exact hasShape_of_not_name (by decide)
      · cases spells
    · split at spells
      · exact hasShape_of_classifyWord spells
      · split at spells
        · cases spells
          exact hasShape_of_not_name (by simp)
        · cases spells

end Lexeme

/-- So have the names of a scan. -/
theorem Scans.hasShape {file : String} {cs : List Char} {pos : Position} {tokens : List Token}
    (scans : Scans file cs pos tokens) : ∀ t ∈ tokens, Lexeme.HasShape t.lexeme.toList t.kind := by
  induction scans with
  | done pos => simp
  | blank _ _ ih => exact ih
  | token _ spells _ ih =>
    intro t member
    rcases List.mem_cons.1 member with rfl | later
    · simpa using Lexeme.hasShape_of_classify spells
    · exact ih t later

/-- A variable starts with its mark. -/
theorem eq_append_of_isVarName {name : String} (shape : Lexeme.isVarName name.toList = true) :
    ∃ bare, name = "V_" ++ bare := by
  unfold Lexeme.isVarName at shape
  split at shape
  · rename_i cs chars
    refine ⟨String.ofList cs, String.toList_injective ?_⟩
    simp [chars]
  · cases shape

/-- A function starts with its mark. -/
theorem eq_append_of_isFunName {name : String} (shape : Lexeme.isFunName name.toList = true) :
    ∃ bare, name = "F_" ++ bare := by
  unfold Lexeme.isFunName at shape
  split at shape
  · rename_i cs chars
    refine ⟨String.ofList cs, String.toList_injective ?_⟩
    simp [chars]
  · cases shape

/-- The names in a text carry the marks of their kinds. -/
theorem mark_of_tokenize {text file : String} {tokens : List Token}
    (read : tokenize text file = .ok tokens) :
    ∀ t ∈ tokens, (t.kind = .varName → ∃ bare, t.lexeme = "V_" ++ bare) ∧
      (t.kind = .funName → ∃ bare, t.lexeme = "F_" ++ bare) := by
  intro t member
  have shape := (scans_of_tokenize read).hasShape t member
  exact ⟨fun kind => eq_append_of_isVarName (shape.1 kind),
    fun kind => eq_append_of_isFunName (shape.2 kind)⟩

end SplBasic
