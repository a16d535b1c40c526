import Mathlib.Data.List.DropRight
import SplBasic.Proofs.LexerExactness
import SplBasic.Source

/-!
# Source lines rebuilt from tokens

No token reaches over the end of a line, so a text is scanned line by line (`Scans.cut_iff`), and
the tokens with the number of a line are the tokens of that line (`Scans.onLine`). Put at their
columns they give the line back, up to the blanks between them:

* `Text.tidied` : a line with spaces for blanks and nothing behind its last token,
* `layout_of_scans` : the lexemes of a line at their columns are the tidied line,
* `rebuilt_line_eq` : so a source text has the tidied lines of the text that its tokens are from,
* `tokenize_rebuilt` : and these lines are read as the same tokens again.
-/

namespace SplBasic

namespace Text

/-! ## Tidied lines -/

/-- A line with a space for every blank outside text literals. Quotes open and close literals by
turns; `quoted` says whether one is open. -/
def spaced (quoted : Bool) : List Char → List Char
  | [] => []
  | c :: cs =>
    if c = '"' then c :: spaced (!quoted) cs
    else (if isBlank c && !quoted then ' ' else c) :: spaced quoted cs

/-- A line with spaces for blanks outside text literals, and without those at its end. -/
def tidied (line : List Char) : List Char :=
  (spaced false line).rdropWhile isBlank

/-- Outside of texts, a blank is written as a space. -/
theorem spaced_blank {c : Char} (blank : isBlank c = true) (cs : List Char) :
    spaced false (c :: cs) = ' ' :: spaced false cs := by
  have notQuote : c ≠ '"' := by
    rintro rfl
    cases blank
  simp [spaced, notQuote, blank]

/-- Characters other than blanks and quotes stay. -/
theorem spaced_append_of_visible {word : List Char}
    (visible : ∀ c ∈ word, c ≠ '"' ∧ isBlank c = false) (cs : List Char) :
    spaced false (word ++ cs) = word ++ spaced false cs := by
  induction word with
  | nil => rfl
  | cons c word ih =>
    rcases List.forall_mem_cons.1 visible with ⟨⟨notQuote, notBlank⟩, later⟩
    simp [spaced, notQuote, notBlank, ih later]

/-- Between quotes everything stays. -/
theorem spaced_append_of_quoted {body : List Char} (inside : ∀ c ∈ body, c ≠ '"')
    (cs : List Char) : spaced true (body ++ cs) = body ++ spaced true cs := by
  induction body with
  | nil => rfl
  | cons c body ih =>
    rcases List.forall_mem_cons.1 inside with ⟨notQuote, later⟩
    simp [spaced, notQuote, ih later]

/-- A line of blanks is written as spaces. -/
theorem spaced_eq_of_blanks {line : List Char} (blank : ∀ c ∈ line, isBlank c = true) :
    spaced false line = List.replicate line.length ' ' := by
  induction line with
  | nil => rfl
  | cons c line ih =>
    rcases List.forall_mem_cons.1 blank with ⟨first, later⟩
    rw [spaced_blank first, ih later]
    rfl

/-- A line of blanks is empty when it is tidied. -/
theorem tidied_eq_nil_of_blanks {line : List Char} (blank : ∀ c ∈ line, isBlank c = true) :
    tidied line = [] := by
  rw [tidied, spaced_eq_of_blanks blank, List.rdropWhile_eq_nil_iff]
  intro c member
  rw [List.eq_of_mem_replicate member]
  decide

/-- Dropping from the right stops at a last element that is kept. -/
theorem rdropWhile_append_of_last {p : Char → Bool} {front : List Char} {last : Char}
    (kept : p last = false) (behind : List Char) :
    (front ++ [last] ++ behind).rdropWhile p = front ++ [last] ++ behind.rdropWhile p := by
  simp only [List.rdropWhile, List.reverse_append, List.dropWhile_append]
  split
  · rename_i empty
    simp [List.isEmpty_iff.1 empty, kept]
  · simp

/-- A blank in front stays a space if something follows. -/
theorem tidied_cons_blank {c : Char} (blank : isBlank c = true) (cs : List Char) :
    tidied (c :: cs) = if tidied cs = [] then [] else ' ' :: tidied cs := by
  rw [tidied, spaced_blank blank]
  split
  · rename_i empty
    refine List.rdropWhile_eq_nil_iff.2 (List.forall_mem_cons.2 ⟨by decide, ?_⟩)
    exact List.rdropWhile_eq_nil_iff.1 empty
  · rename_i nonempty
    simp only [List.rdropWhile, List.reverse_cons, List.dropWhile_append]
    rw [if_neg]
    · simp [tidied, List.rdropWhile]
    · simpa [tidied, List.rdropWhile] using nonempty

/-- A tidied line starts as the line does, or with a blank. -/
theorem head?_tidied {line : List Char} {d : Char} (first : d ∈ (tidied line).head?) :
    isBlank d = true ∨ d ∈ line.head? := by
  rcases List.rdropWhile_prefix isBlank (l := spaced false line) with ⟨dropped, whole⟩
  have first : d ∈ (spaced false line).head? := by
    rw [← whole]
    exact List.mem_head?_append_of_mem_head? first
  cases line with
  | nil => cases first
  | cons c cs =>
    by_cases isQuote : c = '"'
    · right
      simpa [spaced, isQuote] using first
    · cases blank : isBlank c with
      | true =>
        rw [spaced_blank blank] at first
        cases first
        exact .inl (by decide)
      | false =>
        right
        simpa [spaced, isQuote, blank] using first

/-- Only spaces are added. -/
theorem mem_spaced {quoted : Bool} {line : List Char} {d : Char} (member : d ∈ spaced quoted line) :
    d = ' ' ∨ d ∈ line := by
  induction line generalizing quoted with
  | nil => cases member
  | cons c cs ih =>
    rw [spaced] at member
    split at member
    · rcases List.mem_cons.1 member with rfl | later
      · exact .inr List.mem_cons_self
      · exact (ih later).imp_right (List.mem_cons_of_mem c)
    · rcases List.mem_cons.1 member with rfl | later
      · split
        · exact .inl rfl
        · exact .inr List.mem_cons_self
      · exact (ih later).imp_right (List.mem_cons_of_mem c)

/-- A tidied line is one line. -/
theorem not_mem_feed_tidied {line : List Char} (oneLine : '\n' ∉ line) : '\n' ∉ tidied line := by
  intro feed
  have kept := List.rdropWhile_prefix isBlank (l := spaced false line)
  rcases mem_spaced (kept.subset feed) with space | inLine
  · cases space
  · exact oneLine inLine

/-- The lines of a text hold no line feeds. -/
theorem not_mem_feed_of_line {text line : List Char} (listed : line ∈ text.splitOn '\n') :
    '\n' ∉ line := by
  induction text generalizing line with
  | nil =>
    rw [List.splitOn_nil, List.mem_singleton] at listed
    simp [listed]
  | cons c cs ih =>
    rw [List.splitOn_cons_eq_if_modifyHead] at listed
    by_cases feed : c = '\n'
    · rw [if_pos (beq_iff_eq.2 feed)] at listed
      rcases List.mem_cons.1 listed with rfl | later
      · exact List.not_mem_nil
      · exact ih later
    · rw [if_neg (by simpa using feed)] at listed
      -- the character is put in front of the first line
      cases lines : cs.splitOn '\n' with
      | nil => exact absurd lines (List.splitOn_ne_nil _ _)
      | cons first more =>
        rw [lines, List.modifyHead_cons] at listed
        rcases List.mem_cons.1 listed with rfl | later
        · rw [List.mem_cons, not_or]
          exact ⟨Ne.symm feed, ih (by simp [lines])⟩
        · exact ih (by simp [lines, later])

end Text

/-! ## Lexemes on a line -/

namespace Lexeme

variable {kind : TokenKind} {word : List Char}

/-- Tidying a line leaves its lexemes alone. -/
theorem spaced_append_of_spelling (spelt : word ∈ spellings kind) (cs : List Char) :
    Text.spaced false (word ++ cs) = word ++ Text.spaced false cs := by
  rcases quoted_or_visible_of_spelling spelt with quoted | visible
  · rcases mem_quotedText.1 quoted with ⟨body, inside, rfl⟩
    have noQuote : ∀ c ∈ body, c ≠ '"' := by
      rintro _ member rfl
      cases inside _ member
    have opened : Text.spaced false ('"' :: (body ++ ['"']) ++ cs) =
        '"' :: Text.spaced true (body ++ '"' :: cs) := by
      simp [Text.spaced]
    rw [opened, Text.spaced_append_of_quoted noQuote]
    simp [Text.spaced]
  · exact Text.spaced_append_of_visible visible cs

/-- A lexeme does not end with a blank. -/
theorem exists_last_of_spelling (spelt : word ∈ spellings kind) :
    ∃ front last, word = front ++ [last] ∧ Text.isBlank last = false := by
  rcases quoted_or_visible_of_spelling spelt with quoted | visible
  · rcases mem_quotedText.1 quoted with ⟨body, _, rfl⟩
    exact ⟨'"' :: body, '"', rfl, by decide⟩
  · rcases exists_opens_of_spelling spelt with ⟨c, cs, rfl, _⟩
    have whole := List.dropLast_append_getLast (List.cons_ne_nil c cs)
    exact ⟨_, _, whole.symm, (visible _ (List.getLast_mem _)).2⟩

/-- What is dropped at the end of a line stands behind its last lexeme. -/
theorem rdropWhile_append_of_spelling (spelt : word ∈ spellings kind) (front behind : List Char) :
    (front ++ (word ++ behind)).rdropWhile Text.isBlank =
      front ++ (word ++ behind.rdropWhile Text.isBlank) := by
  rcases exists_last_of_spelling spelt with ⟨start, last, rfl, kept⟩
  have dropped : ((front ++ start) ++ [last] ++ behind).rdropWhile Text.isBlank = _ :=
    Text.rdropWhile_append_of_last kept behind
  simpa using dropped

/-- A token is left as it is spelt. -/
theorem tidied_append_of_spelling (spelt : word ∈ spellings kind) (cs : List Char) :
    Text.tidied (word ++ cs) = word ++ Text.tidied cs := by
  rw [Text.tidied, spaced_append_of_spelling spelt]
  exact rdropWhile_append_of_spelling spelt [] _

/-- Blanks end every lexeme. -/
theorem continues_of_isBlank (kind : TokenKind) {c : Char} (blank : Text.isBlank c = true) :
    continues kind c = false := by
  have notWord : isWordChar c = false := by
    by_contra isChar
    rw [isBlank_eq_false_of_isWordChar (Bool.of_not_eq_false isChar)] at blank
    cases blank
  have notNumber : isNumberChar c = false := by
    simp only [isWordChar, Char.isAlphanum, Bool.or_eq_false_iff] at notWord
    have notPoint : c ≠ '.' := by
      rintro rfl
      cases blank
    simp [isNumberChar, notWord, notPoint]
  cases kind with
  | keyword _ => exact notWord
  | operator _ => exact notWord
  | varName => exact notWord
  | funName => exact notWord
  | numLit => exact notNumber
  | _ => rfl

end Lexeme

/-! ## Positions on a line -/

namespace Position

theorem advance_of_ne_feed {c : Char} (sameLine : c ≠ '\n') (pos : Position) :
    pos.advance c = ⟨pos.line, pos.column + 1⟩ := by
  simp [advance, sameLine]

/-- In one line, only the column moves. -/
theorem advanceAll_of_not_mem_feed {cs : List Char} (sameLine : '\n' ∉ cs) (pos : Position) :
    pos.advanceAll cs = ⟨pos.line, pos.column + cs.length⟩ := by
  induction cs generalizing pos with
  | nil => rfl
  | cons c cs ih =>
    rw [List.mem_cons, not_or] at sameLine
    calc pos.advanceAll (c :: cs)
        = (⟨pos.line, pos.column + 1⟩ : Position).advanceAll cs := by
          rw [advanceAll_cons, advance_of_ne_feed (Ne.symm sameLine.1)]
      _ = ⟨pos.line, pos.column + 1 + cs.length⟩ := ih sameLine.2 _
      _ = ⟨pos.line, pos.column + (c :: cs).length⟩ := by
          rw [List.length_cons, Nat.add_right_comm, Nat.add_assoc]

end Position

/-! ## Scans by lexemes -/

/-- Scans are built up from lexemes that do not go on and from blanks. -/
@[elab_as_elim]
theorem Scans.lexemeInduction {file : String}
    {motive : ∀ cs pos ts, Scans file cs pos ts → Prop}
    (done : ∀ pos, motive [] pos [] (.done pos))
    (blank : ∀ c cs pos ts (isBlank : Text.isBlank c = true)
      (scans : Scans file cs (pos.advance c) ts), motive cs (pos.advance c) ts scans →
      motive (c :: cs) pos ts (.blank isBlank scans))
    (lexeme : ∀ (t : Token) rest ts (spelt : t.lexeme.toList ∈ Lexeme.spellings t.kind)
      (ends : ∀ c ∈ rest.head?, Lexeme.continues t.kind c = false) (inFile : t.file = file)
      (scans : Scans file rest (t.pos.advanceAll t.lexeme.toList) ts),
      motive rest (t.pos.advanceAll t.lexeme.toList) ts scans →
      motive (t.lexeme.toList ++ rest) t.pos (t :: ts)
        (Decomposition.scans_of_lexeme spelt ends inFile rfl scans))
    {cs : List Char} {pos : Position} {ts : List Token} (scans : Scans file cs pos ts) :
    motive cs pos ts scans := by
  induction scans with
  | done pos => exact done pos
  | blank isBlank scans ih => exact blank _ _ _ _ isBlank scans ih
  | @token c cs pos ts kind notBlank spells scans ih =>
    -- the chunk that the lexer cuts off is a lexeme with what follows it
    have whole := Lexeme.chunkTail_append_chunkRest c cs
    have spelt := Lexeme.chunk_iff.1 ⟨by rw [whole], spells⟩
    have step := lexeme ⟨kind, file, pos, String.ofList (c :: Lexeme.chunkTail c cs)⟩
      (Lexeme.chunkRest c cs) ts (by simpa using spelt.1) spelt.2 rfl (by simpa using scans)
      (by simpa using ih)
    simpa [whole] using step

namespace Scans

variable {file : String} {pos : Position} {ts : List Token}

theorem eq_nil (scans : Scans file [] pos ts) : ts = [] := by
  cases scans
  rfl

/-- The tokens of a line stand on it. -/
theorem forall_line_eq {line : List Char} (scans : Scans file line pos ts) (oneLine : '\n' ∉ line) :
    ∀ t ∈ ts, t.pos.line = pos.line := by
  induction scans using lexemeInduction with
  | done pos => simp
  | blank c cs pos ts _ _ ih =>
    rw [List.mem_cons, not_or] at oneLine
    rw [Position.advance_of_ne_feed (Ne.symm oneLine.1)] at ih
    exact ih oneLine.2
  | lexeme t rest ts spelt _ _ _ ih =>
    rw [List.mem_append, not_or] at oneLine
    rw [Position.advanceAll_of_not_mem_feed oneLine.1] at ih
    exact List.forall_mem_cons.2 ⟨rfl, ih oneLine.2⟩

/-- No token stands on a line before the one that a scan starts on. -/
theorem forall_line_le {cs : List Char} (scans : Scans file cs pos ts) :
    ∀ t ∈ ts, pos.line ≤ t.pos.line := by
  intro t member
  rcases scans.start_le t member with same | before
  · rw [same]
  · rcases before with below | ⟨same, _⟩
    · exact below.le
    · exact same.le

/-- A word without a certain element ends before that element. -/
theorem exists_append_of_not_mem {word behind front rest : List Char} {c : Char}
    (absent : c ∉ word) (same : word ++ behind = front ++ c :: rest) :
    ∃ more, front = word ++ more ∧ behind = more ++ c :: rest := by
  rcases List.append_eq_append_iff.1 same with ⟨more, front, behind⟩ | ⟨more, longer, next⟩
  · exact ⟨more, front, behind⟩
  · cases more with
    | nil => exact ⟨[], by simpa using longer.symm, by simpa using next.symm⟩
    | cons d more =>
      rcases List.cons.inj next with ⟨rfl, _⟩
      exact absurd (by simp [longer]) absent

/-- A text is scanned line by line. -/
theorem cut_iff {line rest : List Char} (oneLine : '\n' ∉ line) :
    Scans file (line ++ '\n' :: rest) pos ts ↔
      ∃ here later, ts = here ++ later ∧ Scans file line pos here ∧
        Scans file rest ⟨pos.line + 1, 1⟩ later := by
  constructor
  · intro scans
    -- the text is made a variable, as the induction is on the scan of all of it
    generalize whole : line ++ '\n' :: rest = cs at scans
    induction scans using lexemeInduction generalizing line with
    | done pos => simp at whole
    | blank c cs pos ts isBlank scans ih =>
      cases line with
      | nil =>
        rcases List.cons.inj whole with ⟨rfl, rfl⟩
        exact ⟨[], ts, rfl, .done pos, scans⟩
      | cons d line =>
        rcases List.cons.inj whole with ⟨rfl, behind⟩
        rw [List.mem_cons, not_or] at oneLine
        have sameLine := Position.advance_of_ne_feed (Ne.symm oneLine.1) pos
        rcases ih oneLine.2 behind with ⟨here, later, rfl, first, next⟩
        rw [sameLine] at next
        exact ⟨here, later, rfl, .blank isBlank first, next⟩
    | lexeme t behind ts spelt ends inFile scans ih =>
      -- a lexeme holds no line feed, so it lies within the line
      have noFeed := Lexeme.not_mem_feed_of_spelling spelt
      rcases exists_append_of_not_mem noFeed whole.symm with ⟨more, rfl, rfl⟩
      rw [List.mem_append, not_or] at oneLine
      rcases ih oneLine.2 rfl with ⟨here, later, rfl, first, next⟩
      rw [Position.advanceAll_of_not_mem_feed noFeed] at next
      refine ⟨t :: here, later, rfl, ?_, next⟩
      refine Decomposition.scans_of_lexeme spelt ?_ inFile rfl first
      exact fun c first => ends c (List.mem_head?_append_of_mem_head? first)
  · rintro ⟨here, later, rfl, scans, next⟩
    induction scans using lexemeInduction with
    | done pos => exact .blank (by decide) next
    | blank c cs pos ts isBlank scans ih =>
      rw [List.mem_cons, not_or] at oneLine
      rw [Position.advance_of_ne_feed (Ne.symm oneLine.1)] at ih
      refine .blank isBlank ?_
      rw [Position.advance_of_ne_feed (Ne.symm oneLine.1)]
      exact ih oneLine.2 next
    | lexeme t behind ts spelt ends inFile scans ih =>
      rw [List.mem_append, not_or] at oneLine
      rw [Position.advanceAll_of_not_mem_feed oneLine.1] at ih
      rw [List.append_assoc]
      refine Decomposition.scans_of_lexeme spelt ?_ inFile rfl ?_
      · -- at the end of the line, what follows is the line feed, which ends every lexeme
        cases behind with
        | nil => simpa using Lexeme.continues_of_isBlank t.kind (by decide)
        | cons c behind => exact ends
      · rw [Position.advanceAll_of_not_mem_feed oneLine.1]
        exact ih oneLine.2 next

/-! ## Lines of a text -/

/-- The tokens with the number of a line are the tokens of that line. -/
theorem onLine {text : List Char} {n : Nat} (scans : Scans file text ⟨n, 1⟩ ts) (i : Nat) :
    Scans file ((text.splitOn '\n')[i]?.getD []) ⟨n + i, 1⟩
      (ts.filter fun t => t.pos.line = n + i) := by
  have kept {ts : List Token} {m : Nat} (all : ∀ t ∈ ts, t.pos.line = m) :
      (ts.filter fun t => t.pos.line = m) = ts :=
    List.filter_eq_self.2 fun t member => decide_eq_true (all t member)
  have dropped {ts : List Token} {m : Nat} (all : ∀ t ∈ ts, t.pos.line ≠ m) :
      (ts.filter fun t => t.pos.line = m) = [] :=
    List.filter_eq_nil_iff.2 fun t member => by simpa using all t member
  induction i generalizing text n ts with
  | zero =>
    rw [Nat.add_zero]
    by_cases feed : '\n' ∈ text
    · rcases List.eq_append_cons_of_mem feed with ⟨line, rest, rfl, oneLine⟩
      rcases (cut_iff oneLine).1 scans with ⟨here, later, rfl, first, next⟩
      have onIt : ∀ t ∈ here, t.pos.line = n := first.forall_line_eq oneLine
      have below : ∀ t ∈ later, n < t.pos.line := next.forall_line_le
      -- the tokens of later lines have larger line numbers
      have those : ((here ++ later).filter fun t => t.pos.line = n) = here := by
        calc ((here ++ later).filter fun t => t.pos.line = n)
            = (here.filter fun t => t.pos.line = n) ++ later.filter fun t => t.pos.line = n :=
              List.filter_append _ _
          _ = here ++ [] := by
              rw [kept onIt, dropped fun t member => (below t member).ne']
          _ = here := List.append_nil _
      rw [List.splitOn_append_cons_self_of_not_mem oneLine, those]
      exact first
    · have onIt : ∀ t ∈ ts, t.pos.line = n := scans.forall_line_eq feed
      rw [List.splitOn_eq_singleton feed, kept onIt]
      exact scans
  | succ i ih =>
    by_cases feed : '\n' ∈ text
    · rcases List.eq_append_cons_of_mem feed with ⟨line, rest, rfl, oneLine⟩
      rcases (cut_iff oneLine).1 scans with ⟨here, later, rfl, first, next⟩
      -- the first line is cut off, and the others are counted from the next number on
      have apart : ∀ t ∈ here, t.pos.line ≠ n + (i + 1) := by
        intro t member
        have same : t.pos.line = n := first.forall_line_eq oneLine t member
        omega
      have those : ((here ++ later).filter fun t => t.pos.line = n + (i + 1)) =
          later.filter fun t => t.pos.line = n + 1 + i := by
        rw [List.filter_append, dropped apart, List.nil_append, ← Nat.add_assoc,
          Nat.add_right_comm]
      rw [List.splitOn_append_cons_self_of_not_mem oneLine, those, List.getElem?_cons_succ,
        ← Nat.add_assoc, Nat.add_right_comm]
      exact ih next
    · -- without a line feed there is no such line, and no token either
      have apart : ∀ t ∈ ts, t.pos.line ≠ n + (i + 1) := by
        intro t member
        have same : t.pos.line = n := scans.forall_line_eq feed t member
        omega
      rw [List.splitOn_eq_singleton feed, dropped apart]
      exact .done _

/-- No token stands behind the last line. -/
theorem line_lt {text : List Char} {n : Nat} (scans : Scans file text ⟨n, 1⟩ ts) :
    ∀ t ∈ ts, t.pos.line < n + (text.splitOn '\n').length := by
  intro t member
  by_contra behind
  have above : n ≤ t.pos.line := scans.forall_line_le t member
  have missing : (text.splitOn '\n')[t.pos.line - n]? = none := List.getElem?_eq_none (by omega)
  have there := scans.onLine (t.pos.line - n)
  rw [missing, Nat.add_sub_cancel' above] at there
  exact absurd rfl (List.filter_eq_nil_iff.1 there.eq_nil t member ∘ decide_eq_true)

/-- Tidying a line keeps its tokens and their places. -/
theorem tidied {line : List Char} (scans : Scans file line pos ts) (oneLine : '\n' ∉ line) :
    Scans file (Text.tidied line) pos ts := by
  induction scans using lexemeInduction with
  | done pos => exact .done pos
  | blank c cs pos ts isBlank _ ih =>
    rw [List.mem_cons, not_or] at oneLine
    have later := ih oneLine.2
    rw [Text.tidied_cons_blank isBlank]
    -- blanks are kept only where a token follows
    split
    · rename_i empty
      rw [empty] at later
      rw [later.eq_nil]
      exact .done pos
    · refine .blank (by decide) ?_
      rwa [Position.advance_of_ne_feed (Ne.symm oneLine.1)] at later
  | lexeme t rest ts spelt ends inFile _ ih =>
    rw [List.mem_append, not_or] at oneLine
    rw [Lexeme.tidied_append_of_spelling spelt]
    refine Decomposition.scans_of_lexeme spelt (fun d first => ?_) inFile rfl (ih oneLine.2)
    rcases Text.head?_tidied first with blank | kept
    · exact Lexeme.continues_of_isBlank t.kind blank
    · exact ends d kept

/-- So does tidying a text line by line and leaving out lines at its end that hold no tokens. -/
theorem tidied_lines {lines : List (List Char)} {n : Nat}
    (scans : Scans file (['\n'].intercalate lines) ⟨n, 1⟩ ts)
    (oneLine : ∀ line ∈ lines, '\n' ∉ line) {k : Nat} (within : ∀ t ∈ ts, t.pos.line < n + k) :
    Scans file (['\n'].intercalate ((lines.take k).map Text.tidied)) ⟨n, 1⟩ ts := by
  induction lines generalizing n k ts with
  | nil => simpa using scans
  | cons line more ih =>
    rw [List.forall_mem_cons] at oneLine
    cases k with
    | zero =>
      -- no line is kept, and by `within` no token stands on a line
      have none : ts = [] := by
        refine List.eq_nil_iff_forall_not_mem.2 fun t member => ?_
        exact absurd (scans.forall_line_le t member) (Nat.not_le.2 (within t member))
      rw [none]
      exact .done _
    | succ k =>
      cases more with
      | nil =>
        rw [List.intercalate_singleton] at scans
        simpa using scans.tidied oneLine.1
      | cons next more =>
        rw [List.intercalate_cons_cons, List.append_assoc, List.singleton_append] at scans
        rcases (cut_iff oneLine.1).1 scans with ⟨here, later, rfl, first, rest⟩
        rw [List.forall_mem_append] at within
        have below := ih rest oneLine.2 (k := k) fun t member => by
          have := within.2 t member
          simp only
          omega
        have first := first.tidied oneLine.1
        cases k with
        | zero =>
          -- the first line is the last one that is kept
          have none : later = [] := (by simpa using below : Scans file [] _ later).eq_nil
          simpa [none] using first
        | succ k =>
          rw [List.take_succ_cons, List.map_cons, List.take_succ_cons, List.map_cons,
            List.intercalate_cons_cons, List.append_assoc, List.singleton_append]
          exact (cut_iff (Text.not_mem_feed_tidied oneLine.1)).2
            ⟨here, later, rfl, first, by simpa using below⟩

end Scans

/-! ## Lexemes at their columns -/

namespace SourceText

theorem gap_of_le (width k : Nat) : gap width (width + k) = List.replicate k ' ' := by
  cases k with
  | zero => simp [gap]
  | succ k => simp [gap]

/-- The lexemes of a line at their columns are the tidied line. The line goes on behind `width`
characters that stand already and `k` blanks that do not. -/
theorem layout_of_scans {file : String} {line : List Char} {ts : List Token} {n : Nat}
    (width k : Nat) (scans : Scans file line ⟨n, width + k + 1⟩ ts) (oneLine : '\n' ∉ line) :
    layout width ts = (List.replicate k ' ' ++ Text.spaced false line).rdropWhile Text.isBlank := by
  generalize start : (⟨n, width + k + 1⟩ : Position) = pos at scans
  induction scans using Scans.lexemeInduction generalizing width k with
  | done pos =>
    refine (List.rdropWhile_eq_nil_iff.2 fun c member => ?_).symm
    rw [Text.spaced, List.append_nil] at member
    rw [List.eq_of_mem_replicate member]
    decide
  | blank c cs pos ts isBlank _ ih =>
    rw [List.mem_cons, not_or] at oneLine
    have next : (⟨n, width + (k + 1) + 1⟩ : Position) = pos.advance c := by
      rw [Position.advance_of_ne_feed (Ne.symm oneLine.1), ← start]
      rfl
    -- a blank is not written yet: it is counted until a lexeme follows
    rw [ih width (k + 1) oneLine.2 next, Text.spaced_blank isBlank, List.replicate_succ',
      List.append_assoc]
    rfl
  | lexeme t rest ts spelt _ _ _ ih =>
    rw [List.mem_append, not_or] at oneLine
    -- a lexeme is written behind all blanks that were counted
    have column : t.pos.column - 1 = width + k := by
      rw [← start]
      rfl
    have next : (⟨n, width + k + t.lexeme.toList.length + 1⟩ : Position) =
        t.pos.advanceAll t.lexeme.toList := by
      rw [Position.advanceAll_of_not_mem_feed oneLine.1, ← start, Nat.add_right_comm]
    have later := ih (width + k + t.lexeme.toList.length) 0 oneLine.2 next
    rw [List.replicate_zero, List.nil_append] at later
    rw [layout, column, gap_of_le, Lexeme.spaced_append_of_spelling spelt,
      Lexeme.rdropWhile_append_of_spelling spelt, List.length_replicate, later, List.append_assoc]

end SourceText

/-! ## Lines rebuilt from the tokens of a text -/

section Rebuilt

variable {text file : String} {tokens : List Token}

/-- A line of a text, empty if there is none with that number, holds no line feed. -/
theorem not_mem_feed_getD (text : List Char) (i : Nat) :
    '\n' ∉ (text.splitOn '\n')[i]?.getD [] := by
  cases found : (text.splitOn '\n')[i]? with
  | none => exact List.not_mem_nil
  | some line => exact Text.not_mem_feed_of_line (List.mem_of_getElem? found)

/-- The kept source shows each line as it was, but for blanks. -/
theorem line_eq_tidied (read : tokenize text file = .ok tokens) (i : Nat) :
    SourceText.line ⟨tokens⟩ (i + 1) =
      String.ofList (Text.tidied ((text.toList.splitOn '\n')[i]?.getD [])) := by
  have scans : Scans file text.toList ⟨1, 1⟩ tokens := scans_of_tokenize read
  have onLine := scans.onLine i
  rw [Nat.add_comm] at onLine
  exact congrArg String.ofList
    (SourceText.layout_of_scans 0 0 onLine (not_mem_feed_getD text.toList i))

/-- A line rebuilt from the tokens of a text is the line of that number in the text, with a space
for every blank outside text literals and nothing behind its last token. It is empty if the text has
no such line or the line is blank. -/
theorem rebuilt_line_eq (read : tokenize text file = .ok tokens) {n : Nat} (positive : 1 ≤ n) :
    (∀ line, (text.toList.splitOn '\n')[n - 1]? = some line →
      SourceText.line ⟨tokens⟩ n = String.ofList (Text.tidied line) ∧
        ((∀ c ∈ line, Text.isBlank c = true) → SourceText.line ⟨tokens⟩ n = "")) ∧
      ((text.toList.splitOn '\n')[n - 1]? = none → SourceText.line ⟨tokens⟩ n = "") := by
  have rebuilt := line_eq_tidied read (n - 1)
  rw [Nat.sub_add_cancel positive] at rebuilt
  refine ⟨fun line found => ?_, fun missing => ?_⟩
  · rw [found, Option.getD_some] at rebuilt
    refine ⟨rebuilt, fun blank => ?_⟩
    rw [rebuilt, Text.tidied_eq_nil_of_blanks blank]
  · rw [rebuilt, missing]
    rfl

end Rebuilt

/-- A text with blanks of many kinds, also inside a literal, with tokens that touch, an empty line
and a blank last line. -/
def mixedSource : String :=
  "main\t\"a\tü\"; \r\n\n\u3000V_x(-1.5\u00a0\n\t"

/-- Only the blanks outside the literal become spaces. -/
theorem rebuilt_line_eq_mixedSource :
    ∃ tokens, tokenize mixedSource "t.spl" = .ok tokens ∧
      SourceText.line ⟨tokens⟩ 1 = "main \"a\tü\";" ∧ SourceText.line ⟨tokens⟩ 2 = "" ∧
      SourceText.line ⟨tokens⟩ 3 = " V_x(-1.5" ∧ SourceText.line ⟨tokens⟩ 4 = "" ∧
      SourceText.line ⟨tokens⟩ 5 = "" := by
  have readable : (tokenize mixedSource "t.spl").isOk = true := by decide +kernel
  cases read : tokenize mixedSource "t.spl" with
  | error e =>
    rw [read] at readable
    cases readable
  | ok tokens =>
    have lines : mixedSource.toList.splitOn '\n' = ["main\t\"a\tü\"; \r".toList, [],
        "\u3000V_x(-1.5\u00a0".toList, ['\t']] := by
      decide +kernel
    have first := (rebuilt_line_eq read (n := 1) (by decide)).1 _ (by rw [lines]; rfl)
    have second := (rebuilt_line_eq read (n := 2) (by decide)).1 _ (by rw [lines]; rfl)
    have third := (rebuilt_line_eq read (n := 3) (by decide)).1 _ (by rw [lines]; rfl)
    have fourth := (rebuilt_line_eq read (n := 4) (by decide)).1 _ (by rw [lines]; rfl)
    have fifth := (rebuilt_line_eq read (n := 5) (by decide)).2 (by rw [lines]; rfl)
    refine ⟨tokens, rfl, first.1.trans ?_, second.2 (by simp), third.1.trans ?_,
      fourth.2 (List.forall_mem_singleton.2 (by decide)), fifth⟩
    · decide +kernel
    · decide +kernel

/-! ## Reading the rebuilt text again -/

namespace SourceText

/-- The lines of a source text up to the one that its last token stands on, joined by line feeds. -/
def rebuilt (source : SourceText) : String :=
  match source.tokens.getLast? with
  | none => ""
  | some last => "\n".intercalate ((List.range last.pos.line).map fun i => source.line (i + 1))

end SourceText

section Rebuilt

variable {text file : String} {tokens : List Token}

/-- The last token of a text stands on the last line that has tokens. -/
theorem line_le_of_getLast? (read : tokenize text file = .ok tokens) {last : Token}
    (isLast : tokens.getLast? = some last) : ∀ t ∈ tokens, t.pos.line ≤ last.pos.line := by
  rcases List.getLast?_eq_some_iff.1 isLast with ⟨front, rfl⟩
  have ordered := (List.pairwise_append.1 (pairwise_before_of_tokenize read)).2.2
  intro t member
  rcases List.mem_append.1 member with inFront | same
  · rcases ordered t inFront last List.mem_cons_self with above | ⟨same, _⟩
    · exact above.le
    · exact same.le
  · rw [List.mem_singleton.1 same]

/-- The rebuilt text has the tidied lines of the text that the tokens are from. -/
theorem toList_rebuilt (read : tokenize text file = .ok tokens) {last : Token}
    (isLast : tokens.getLast? = some last) :
    (SourceText.rebuilt ⟨tokens⟩).toList = ['\n'].intercalate
      (((text.toList.splitOn '\n').take last.pos.line).map Text.tidied) := by
  have scans : Scans file text.toList ⟨1, 1⟩ tokens := scans_of_tokenize read
  -- the last token stands on a line of the text, so all lines up to it are there
  have enough : last.pos.line ≤ (text.toList.splitOn '\n').length := by
    have := scans.line_lt last (List.mem_of_getLast? isLast)
    omega
  have lines : ((List.range last.pos.line).map fun i => SourceText.line ⟨tokens⟩ (i + 1)).map
      String.toList = ((text.toList.splitOn '\n').take last.pos.line).map Text.tidied := by
    refine List.ext_getElem (by simpa using enough) fun i here there => ?_
    have inside : i < (text.toList.splitOn '\n').length := by
      rw [List.length_map, List.length_take] at there
      omega
    simp [line_eq_tidied read, inside]
  rw [SourceText.rebuilt]
  simp only [isLast]
  rw [String.toList_intercalate, lines]
  rfl

/-- Reading the text that is rebuilt from the tokens of a text gives the same tokens at the same
places. -/
theorem tokenize_rebuilt (read : tokenize text file = .ok tokens) :
    tokenize (SourceText.rebuilt ⟨tokens⟩) file = .ok tokens := by
  cases isLast : tokens.getLast? with
  | none =>
    rw [List.getLast?_eq_none_iff] at isLast
    subst isLast
    exact tokenize_of_scans (.done .start)
  | some last =>
    have scans : Scans file (['\n'].intercalate (text.toList.splitOn '\n')) ⟨1, 1⟩ tokens := by
      rw [List.intercalate_splitOn]
      exact scans_of_tokenize read
    refine tokenize_of_scans ?_
    rw [toList_rebuilt read isLast]
    refine scans.tidied_lines (fun line => Text.not_mem_feed_of_line) fun t member => ?_
    have := line_le_of_getLast? read isLast t member
    omega

end Rebuilt

/-- The rebuilt text is another text with the same tokens. -/
theorem tokenize_rebuilt_mixedSource :
    ∃ tokens, tokenize mixedSource "t.spl" = .ok tokens ∧
      SourceText.rebuilt ⟨tokens⟩ = "main \"a\tü\";\n\n V_x(-1.5" ∧
      tokenize "main \"a\tü\";\n\n V_x(-1.5" "t.spl" = .ok tokens := by
  have rebuilt : (tokenize mixedSource "t.spl").toOption.map (SourceText.rebuilt ⟨·⟩) =
      some "main \"a\tü\";\n\n V_x(-1.5" := by
    decide +kernel
  cases read : tokenize mixedSource "t.spl" with
  | error e =>
    rw [read] at rebuilt
    cases rebuilt
  | ok tokens =>
    rw [read, Except.toOption, Option.map_some, Option.some.injEq] at rebuilt
    exact ⟨tokens, rfl, rebuilt, rebuilt ▸ tokenize_rebuilt read⟩

end SplBasic
