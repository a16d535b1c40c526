import SplBasic.Proofs.ListingShape
import SplBasic.Proofs.ParserExactness
import SplBasic.Proofs.ProblemPlaces
import SplBasic.Proofs.ScanResumption
import SplBasic.Proofs.SourceLines

/-!
# What errors point at

An error names a file and a place, and shows a line with a caret below one of its columns. The line
of a lexing error is taken from the text, all others are rebuilt from tokens; the caret is below the
culprit in both.

* `Text.standsAt_line` : a character stands on its line of the text, at its column,
* `standsAt_of_mem` : a lexeme stands on its rebuilt line, at its column,
* `column_behind_last` : the last line that has tokens ends right behind the last of them,
* `pointsIn_of_compile_error` : so whatever stops the compiler, each error points at its culprit.
-/

namespace SplBasic

namespace Text

/-- The characters `word` stand on a line at `column`, counted from 1. -/
def StandsAt (word line : List Char) (column : Nat) : Prop :=
  ∃ before behind, line = before ++ (word ++ behind) ∧ column = before.length + 1

/-! ## Characters on the lines of a text -/

/-- In the first line, columns are counted from one. -/
theorem place_of_not_mem_feed {before : List Char} (sameLine : '\n' ∉ before) :
    place before = ⟨1, before.length + 1⟩ := by
  have moved := place_append [] before
  rw [List.nil_append, Position.advanceAll_of_not_mem_feed sameLine] at moved
  rw [moved, Nat.add_comm before.length]
  rfl

/-- Behind a line feed, places are counted as in a text of their own, one line further down. -/
theorem place_append_feed {line : List Char} (oneLine : '\n' ∉ line) (rest : List Char) :
    place (line ++ '\n' :: rest) = ⟨(place rest).line + 1, (place rest).column⟩ := by
  have column : (rest.reverse ++ '\n' :: line.reverse).takeWhile (· != '\n') =
      rest.reverse.takeWhile (· != '\n') :=
    takeWhile_append_cons_of_neg (by decide) _ _
  simp [place, column, List.count_eq_zero_of_not_mem oneLine]

section Pieces

variable {separator : Char} {piece : List Char}

theorem pieces_ne_nil (separator : Char) (cs : List Char) : pieces separator cs ≠ [] := by
  cases cs with
  | nil => exact List.cons_ne_nil _ _
  | cons c cs =>
    rw [pieces]
    split
    · exact List.cons_ne_nil _ _
    · split
      · exact List.cons_ne_nil _ _
      · exact List.cons_ne_nil _ _

/-- Without a separator there is one piece. -/
theorem pieces_of_not_mem (absent : separator ∉ piece) : pieces separator piece = [piece] := by
  induction piece with
  | nil => rfl
  | cons c cs ih =>
    rw [List.mem_cons, not_or] at absent
    rw [pieces, if_neg (Ne.symm absent.1), ih absent.2]

/-- The first separator ends the first piece. -/
theorem pieces_append_cons (absent : separator ∉ piece) (rest : List Char) :
    pieces separator (piece ++ separator :: rest) = piece :: pieces separator rest := by
  induction piece with
  | nil => simp [pieces]
  | cons c cs ih =>
    rw [List.mem_cons, not_or] at absent
    rw [List.cons_append, pieces, if_neg (Ne.symm absent.1), ih absent.2]

end Pieces

theorem lines_of_not_mem_feed {line : List Char} (oneLine : '\n' ∉ line) (nonempty : line ≠ []) :
    lines line = [line] := by
  rw [lines, pieces_of_not_mem oneLine, linesOfPieces, if_neg nonempty]

/-- A line feed ends a line; a carriage return in front of it is dropped. -/
theorem lines_append_feed {line : List Char} (oneLine : '\n' ∉ line) (rest : List Char) :
    lines (line ++ '\n' :: rest) = stripReturn line :: lines rest := by
  rw [lines, pieces_append_cons oneLine, linesOfPieces]
  · rfl
  · exact pieces_ne_nil '\n' rest

/-- No carriage return in front of a visible character belongs to a line end. -/
theorem exists_stripReturn {c : Char} (notBlank : isBlank c = false) (before behind : List Char) :
    ∃ kept, stripReturn (before ++ c :: behind) = before ++ c :: kept := by
  unfold stripReturn
  split
  · rename_i last
    cases behind with
    | nil =>
      rw [List.getLast?_concat, Option.some.injEq] at last
      subst last
      cases notBlank
    | cons d behind => exact ⟨(d :: behind).dropLast, by simp⟩
  · exact ⟨behind, rfl⟩

/-- A visible character of a text stands on the line that its place names, at its column. -/
theorem standsAt_line {c : Char} (notBlank : isBlank c = false) (before behind : List Char) :
    StandsAt [c] (line (before ++ c :: behind) (place before).line) (place before).column := by
  have notFeed : '\n' ≠ c := by
    rintro rfl
    cases notBlank
  -- the recursion goes line by line, up to the one that the character stands on
  induction size : before.length using Nat.strongRecOn generalizing before with
  | ind n ih =>
    subst size
    by_cases feed : '\n' ∈ before
    · rcases List.eq_append_cons_of_mem feed with ⟨first, more, rfl, oneLine⟩
      have below := ih more.length (by simp; omega) more rfl
      rw [place_append_feed oneLine, List.append_assoc, List.cons_append, line,
        lines_append_feed oneLine]
      exact below
    · rw [place_of_not_mem_feed feed]
      by_cases ends : '\n' ∈ behind
      · rcases List.eq_append_cons_of_mem ends with ⟨rest, more, rfl, sameLine⟩
        have oneLine : '\n' ∉ before ++ c :: rest := by simp [feed, notFeed, sameLine]
        rcases exists_stripReturn notBlank before rest with ⟨kept, stripped⟩
        refine ⟨before, kept, ?_, rfl⟩
        have whole : before ++ c :: (rest ++ '\n' :: more) =
            (before ++ c :: rest) ++ '\n' :: more := by simp
        rw [whole, line, lines_append_feed oneLine, stripped]
        rfl
      · have oneLine : '\n' ∉ before ++ c :: behind := by simp [feed, notFeed, ends]
        refine ⟨before, behind, ?_, rfl⟩
        rw [line, lines_of_not_mem_feed oneLine (by simp)]
        rfl

end Text

/-! ## Lexing errors -/

/-- The error stands at a visible character of the text, and the caret is below it. -/
structure LexError.PointsIn (text file : String) (e : LexError) : Prop where
  inFile : e.file = file
  onCulprit : ∃ before c behind, text.toList = before ++ c :: behind ∧ e.pos = Text.place before ∧
    Text.isBlank c = false ∧ Text.StandsAt [c] e.sourceLine.toList e.pos.column

/-- Chunks start with characters that are not blank. -/
theorem Chunked.exists_visible {front rest : List Char} {chunks : List Chunk}
    (chunked : Chunked front rest chunks) :
    ∀ chunk ∈ chunks, ∃ c cs, chunk.word = c :: cs ∧ Text.isBlank c = false := by
  induction chunked with
  | done front => simp
  | blank _ _ ih => exact ih
  | chunk isChunk _ ih =>
    rcases isChunk.exists_cons with ⟨c, cs, rfl⟩
    exact List.forall_mem_cons.2 ⟨⟨c, cs, rfl, isChunk.chunkTail_eq.1⟩, ih⟩

/-- The lexer points at the character that it cannot read. -/
theorem pointsIn_of_tokenize_error {text file : String} {e : LexError}
    (failed : tokenize text file = .error e) : e.PointsIn text file := by
  rcases exists_chunks [] text.toList with ⟨chunks, only⟩
  have chunked := (only chunks).2 rfl
  rcases chunks_cases chunks with tokens | ⟨sound, bad, more, rfl, tokens, faulty⟩
  · rcases scanFrom_of_tokens file chunked tokens with ⟨ts, read, _⟩
    have first : (Cursor.ofText text).scan file = _ := read
    rw [tokenize, first] at failed
    cases failed
  · rcases scanFrom_of_fault file chunked tokens faulty with ⟨fault, behind, read, whole, _⟩
    rcases chunked.exists_visible bad (by simp) with ⟨c, cs, word, notBlank⟩
    have first : (Cursor.ofText text).scan file = _ := read
    rw [tokenize, first] at failed
    cases failed
    -- the faulty chunk starts with a visible character, at which the error stands
    have split : text.toList = bad.front ++ c :: (cs ++ behind) := by
      rw [← List.nil_append text.toList, ← whole, word]
      simp
    refine ⟨rfl, bad.front, c, cs ++ behind, split, rfl, notBlank, ?_⟩
    rw [LexError.ofFault, String.toList_ofList, split]
    exact Text.standsAt_line notBlank bad.front (cs ++ behind)

/-! ## Lexemes on rebuilt lines -/

/-- The lexemes before a token of a line, and what fills the space between them, reach up to the
column of the token. The line goes on behind `width` characters that stand already and `k` blanks
that do not. -/
theorem SourceText.exists_layout_append {file : String} {line : List Char}
    {first later : List Token} {t : Token} {n : Nat} (width k : Nat)
    (scans : Scans file line ⟨n, width + k + 1⟩ (first ++ t :: later)) (oneLine : '\n' ∉ line) :
    ∃ before, layout width (first ++ t :: later) =
        before ++ (t.lexeme.toList ++
          layout (width + before.length + t.lexeme.toList.length) later) ∧
      t.pos.column = width + before.length + 1 := by
  generalize start : (⟨n, width + k + 1⟩ : Position) = pos at scans
  generalize listed : first ++ t :: later = ts at scans
  induction scans using Scans.lexemeInduction generalizing width k first with
  | done pos => simp at listed
  | blank c cs pos ts isBlank _ ih =>
    rw [List.mem_cons, not_or] at oneLine
    have next : (⟨n, width + (k + 1) + 1⟩ : Position) = pos.advance c := by
      rw [Position.advance_of_ne_feed (Ne.symm oneLine.1), ← start]
      rfl
    exact ih width (k + 1) oneLine.2 next listed
  | lexeme s rest ts spelt _ _ _ ih =>
    rw [List.mem_append, not_or] at oneLine
    have column : s.pos.column = width + k + 1 := by rw [← start]
    have between : gap width (s.pos.column - 1) = List.replicate k ' ' := by
      rw [column, Nat.add_sub_cancel, gap_of_le]
    -- the lexeme is that of the token itself, or of one of those before it
    cases first with
    | nil =>
      rcases List.cons.inj listed with ⟨rfl, rfl⟩
      refine ⟨List.replicate k ' ', ?_, by rw [List.length_replicate, column]⟩
      rw [layout, between, List.append_assoc]
    | cons s first =>
      rcases List.cons.inj listed with ⟨rfl, behind⟩
      have next : (⟨n, width + k + s.lexeme.toList.length + 1⟩ : Position) =
          s.pos.advanceAll s.lexeme.toList := by
        rw [Position.advanceAll_of_not_mem_feed oneLine.1, ← start, Nat.add_right_comm]
      rcases ih (width + k + s.lexeme.toList.length) 0 oneLine.2 next behind with
        ⟨before, rebuilt, place⟩
      refine ⟨List.replicate k ' ' ++ s.lexeme.toList ++ before, ?_, ?_⟩
      · rw [layout, between, List.length_replicate, rebuilt]
        simp [Nat.add_assoc]
      · rw [place]
        simp [Nat.add_assoc]

namespace Scans

variable {file : String} {cs : List Char} {pos : Position} {ts : List Token}

/-- Each token knows its file. -/
theorem forall_file (scans : Scans file cs pos ts) : ∀ t ∈ ts, t.file = file := by
  induction scans using lexemeInduction with
  | done pos => simp
  | blank _ _ _ _ _ _ ih => exact ih
  | lexeme t rest ts _ _ inFile _ ih => exact List.forall_mem_cons.2 ⟨inFile, ih⟩

/-- Only blanks give no tokens. -/
theorem eq_nil_iff (scans : Scans file cs pos ts) : ts = [] ↔ cs.all Text.isBlank = true := by
  induction scans with
  | done pos => simp
  | blank isBlank _ ih => simp [isBlank, ih]
  | token notBlank _ _ _ => simp [notBlank]

end Scans

section Tokens

variable {text file : String} {tokens : List Token}

/-- The rebuilt line of a token has the lexeme at the column of the token. What follows are the
lexemes of later tokens. -/
theorem exists_line_append (read : tokenize text file = .ok tokens) {first later : List Token}
    {t : Token} (split : tokens = first ++ t :: later) :
    ∃ before, (SourceText.line ⟨tokens⟩ t.pos.line).toList =
        before ++ (t.lexeme.toList ++ SourceText.layout (before.length + t.lexeme.toList.length)
          (later.filter fun s => s.pos.line = t.pos.line)) ∧
      t.pos.column = before.length + 1 := by
  have scans : Scans file text.toList ⟨1, 1⟩ tokens := scans_of_tokenize read
  have positive : 1 ≤ t.pos.line := scans.forall_line_le t (by simp [split])
  have onLine := scans.onLine (t.pos.line - 1)
  rw [Nat.add_sub_cancel' positive, split, List.filter_append,
    List.filter_cons_of_pos (by simp)] at onLine
  -- the line is laid out from its tokens, so the token stands behind those in front of it
  rcases SourceText.exists_layout_append 0 0 onLine (not_mem_feed_getD _ _) with
    ⟨before, rebuilt, column⟩
  rw [Nat.zero_add] at rebuilt column
  refine ⟨before, ?_, column⟩
  rw [SourceText.line, String.toList_ofList, split, List.filter_append,
    List.filter_cons_of_pos (by simp), rebuilt]

/-- Each token stands in its line at its column. -/
theorem standsAt_of_mem (read : tokenize text file = .ok tokens) {t : Token} (member : t ∈ tokens) :
    Text.StandsAt t.lexeme.toList (SourceText.line ⟨tokens⟩ t.pos.line).toList t.pos.column := by
  rcases List.append_of_mem member with ⟨first, later, split⟩
  rcases exists_line_append read split with ⟨before, rebuilt, column⟩
  exact ⟨before, _, rebuilt, column⟩

/-- The last token ends its line. -/
theorem column_behind_last (read : tokenize text file = .ok tokens) {last : Token}
    (isLast : tokens.getLast? = some last) :
    last.pos.column + last.lexeme.length = (SourceText.line ⟨tokens⟩ last.pos.line).length + 1 := by
  rcases List.getLast?_eq_some_iff.1 isLast with ⟨first, split⟩
  rcases exists_line_append read split with ⟨before, rebuilt, column⟩
  have width := congrArg List.length rebuilt
  simp only [List.filter_nil, SourceText.layout, List.length_append, String.length_toList,
    List.length_nil] at width
  omega

end Tokens

/-! ## Parse errors -/

/-- The error stands at a token of the text or behind the last one, and the caret is below it. Where
there is no token at all, the file is not known. -/
structure ParseError.PointsIn (text file : String) (tokens : List Token) (e : ParseError) :
    Prop where
  inFile : e.found.file = if text.toList.all Text.isBlank then "<input>" else file
  onCulprit : e.found.kind ≠ .eof → e.found ∈ tokens ∧
    Text.StandsAt e.found.lexeme.toList e.sourceLine.toList e.found.pos.column
  behindAll : e.found.kind = .eof → e.found.pos.column = e.sourceLine.length + 1

/-- A parse error shows the line that it stands on. -/
theorem sourceLine_of_parse_error {tokens : List Token} {e : ParseError}
    (failed : parse tokens = .error e) :
    e.sourceLine = SourceText.line ⟨tokens⟩ e.found.pos.line := by
  simp only [parse] at failed
  split at failed
  · cases failed
  · cases failed
    rfl

/-- A parse error stands at a token or at the end mark. -/
theorem found_of_parse_error {tokens : List Token} {e : ParseError}
    (failed : parse tokens = .error e) :
    e.found ∈ tokens ∧ e.found.kind ≠ .eof ∨ e.found = endMark tokens := by
  rcases program_of_parse_error failed with ⟨rest, stopped, found⟩
  rcases viable_of_program stopped with ⟨front, whole, _⟩
  cases rest with
  | nil => exact .inr found
  | cons t rest =>
    have same : e.found = t := found
    have member : t ∈ significant tokens := by simp [whole]
    rw [same]
    exact .inl ⟨(significant_sublist tokens).subset member, significant_kind member⟩

section Tokens

variable {text file : String} {tokens : List Token}

/-- No token of a text is an end mark. -/
theorem kind_ne_eof_of_tokenize (read : tokenize text file = .ok tokens) :
    ∀ t ∈ tokens, t.kind ≠ .eof := by
  intro t member isMark
  have spelt := spelling_of_tokenize read t member
  rw [isMark] at spelt
  exact spelt

/-- The parser points at a token or behind the last one. -/
theorem pointsIn_of_parse_error (read : tokenize text file = .ok tokens) {e : ParseError}
    (failed : parse tokens = .error e) : e.PointsIn text file tokens := by
  have scans := scans_of_tokenize read
  have shown := sourceLine_of_parse_error failed
  rcases found_of_parse_error failed with ⟨member, real⟩ | atEnd
  · have someVisible := mt scans.eq_nil_iff.2 (List.ne_nil_of_mem member)
    refine ⟨?_, fun _ => ⟨member, ?_⟩, fun isMark => absurd isMark real⟩
    · rw [if_neg someVisible, scans.forall_file _ member]
    · rw [shown]
      exact standsAt_of_mem read member
  -- a text has no end mark of its own, so the mark is made up from the last token
  · have isMark : e.found.kind = .eof := by rw [atEnd, endMark_kind]
    have noMark : tokens.find? (fun t => t.kind = .eof) = none := by
      simpa using kind_ne_eof_of_tokenize read
    cases isLast : tokens.getLast? with
    | none =>
      have allBlank := scans.eq_nil_iff.1 (List.getLast?_eq_none_iff.1 isLast)
      have found : e.found = ⟨.eof, "<input>", .start, ""⟩ := by
        rw [atEnd, endMark]
        simp only [noMark, isLast]
      refine ⟨by rw [if_pos allBlank, found], fun real => absurd isMark real, fun _ => ?_⟩
      rw [shown, found, List.getLast?_eq_none_iff.1 isLast]
      rfl
    | some last =>
      have member := List.mem_of_getLast? isLast
      have someVisible := mt scans.eq_nil_iff.2 (List.ne_nil_of_mem member)
      have found : e.found =
          ⟨.eof, last.file, ⟨last.pos.line, last.pos.column + last.lexeme.length⟩, ""⟩ := by
        rw [atEnd, endMark]
        simp only [noMark, isLast]
      refine ⟨?_, fun real => absurd isMark real, fun _ => ?_⟩
      · rw [if_neg someVisible, found, ← scans.forall_file last member]
      · rw [shown, found]
        exact column_behind_last read isLast

/-! ## Diagnostics -/

/-- The diagnostic stands at a token of the text, and the caret is below it. -/
structure Diagnostic.PointsIn (file : String) (tokens : List Token) (d : Diagnostic) : Prop where
  inFile : d.file = file
  onCulprit : ∃ t ∈ tokens, t.pos = d.pos ∧
    Text.StandsAt t.lexeme.toList d.sourceLine.toList d.pos.column

/-- A program knows the file of its tokens. -/
theorem file_of_parse (read : tokenize text file = .ok tokens) {p : Program}
    (parsed : parse tokens = .ok p) : p.file = file := by
  have main {ts : List Token} (spelt : p.SpeltBy ts) : p.main ∈ ts := by
    cases spelt
    exact List.mem_cons_self
  have member := (significant_sublist tokens).subset (main (spelt_of_parse parsed))
  exact (scans_of_tokenize read).forall_file p.main member

/-- Problems at places of tokens are shown as diagnostics that point at these tokens. -/
theorem pointsIn_ofProblem (read : tokenize text file = .ok tokens) {p : Program}
    (parsed : parse tokens = .ok p) {problem : Located Problem}
    (placed : ∃ t ∈ tokens, t.pos = problem.pos) :
    (Diagnostic.ofProblem p.file p.source problem).PointsIn file tokens := by
  rcases placed with ⟨t, member, here⟩
  rw [file_of_parse read parsed, (parse_eq_ok_iff.1 parsed).2]
  refine ⟨rfl, t, member, here, ?_⟩
  rw [Diagnostic.ofProblem, ← here]
  exact standsAt_of_mem read member

/-- Problems of names stand at name tokens. -/
theorem exists_token_of_scopeProblem {p : Program} (parsed : parse tokens = .ok p) :
    ∀ l ∈ (resolve p).problems, ∃ t ∈ tokens, t.pos = l.pos := by
  intro l listed
  have place := (p.pos_scopeProblems_sublist p.scopeTree).subset (List.mem_map_of_mem listed)
  rcases List.mem_map.1 place with ⟨n, isName, here⟩
  exact ⟨n.name.token, (token_of_parse parsed n isName).1, here⟩

/-- Problems of types stand at tokens of commands. -/
theorem exists_token_of_typeProblem {p : Program} (parsed : parse tokens = .ok p) :
    ∀ l ∈ (typecheck (resolve p).scopes (resolve p).program).problems,
      ∃ t ∈ tokens, t.pos = l.pos := by
  have inText := (spelt_of_parse parsed).parts.tokens_sublist.trans (significant_sublist tokens)
  have placed : ∀ part ∈ (p.bindNames p.scopeTree).parts,
      ∃ s ∈ tokens, s.pos = part.token.pos := by
    intro part isPart
    have listed : part.token ∈ p.parts.map Part.token := by
      rw [← Program.tokens_bindNames p.scopeTree]
      exact List.mem_map_of_mem isPart
    exact ⟨part.token, inText.subset listed, rfl⟩
  exact Program.forall_typeProblems p.scopeTree (P := fun pos => ∃ s ∈ tokens, s.pos = pos) placed

end Tokens

/-! ## Compiling -/

/-- All that the error says about places is right: it names the file, and each caret is below the
culprit. -/
def CompileError.PointsIn (text file : String) : CompileError → Prop
  | lex e => e.PointsIn text file
  | parse e => ∃ tokens, tokenize text file = .ok tokens ∧ e.PointsIn text file tokens
  | scope ds => ds ≠ [] ∧
    ∃ tokens, tokenize text file = .ok tokens ∧ ∀ d ∈ ds, d.PointsIn file tokens
  | type ds => ds ≠ [] ∧
    ∃ tokens, tokenize text file = .ok tokens ∧ ∀ d ∈ ds, d.PointsIn file tokens

/-- Whatever keeps a text from being compiled, each error points at its culprit. -/
theorem pointsIn_of_compile_error {text file : String} {e : CompileError}
    (failed : compile text file = .error e) : e.PointsIn text file := by
  -- the stages run one after the other, and the first that fails gives the error
  cases read : tokenize text file with
  | error fault =>
    rw [compile_of_error read] at failed
    cases failed
    exact pointsIn_of_tokenize_error read
  | ok tokens =>
    rw [compile_of_ok read] at failed
    cases parsed : parse tokens with
    | error stop =>
      rw [compileTokens_of_error parsed] at failed
      cases failed
      exact ⟨tokens, read, pointsIn_of_parse_error read parsed⟩
    | ok p =>
      rw [compileTokens_of_ok parsed] at failed
      by_cases clean : (resolve p).problems = []
      · by_cases typed : (typecheck (resolve p).scopes (resolve p).program).problems = []
        · rw [compileProgram_of_clean clean typed] at failed
          cases failed
        · rw [compileProgram_of_type clean typed] at failed
          cases failed
          refine ⟨by simpa [Typing.diagnostics] using typed, tokens, read, ?_⟩
          refine List.forall_mem_map.2 fun l listed => ?_
          exact pointsIn_ofProblem read parsed (exists_token_of_typeProblem parsed l listed)
      · rw [compileProgram_of_scope clean] at failed
        cases failed
        refine ⟨by simpa [Resolution.diagnostics] using clean, tokens, read, ?_⟩
        refine List.forall_mem_map.2 fun l listed => ?_
        exact pointsIn_ofProblem read parsed (exists_token_of_scopeProblem parsed l listed)

/-- A text with a wrong operand on its second line and a return outside functions on its third. -/
def wideBlankSource : String :=
  "main num V_x,\n\u3000begin\tV_x = add(V_x,\"a\u00a0b\");\n  return V_x end"

/-- Wide blanks before the culprit and inside it do not move the caret. -/
theorem pointsIn_of_compile_error_wideBlankSource :
    ∃ e, compile wideBlankSource "t.spl" = .error e ∧
      e.diagnostics.map Diagnostic.pos = [⟨2, 22⟩, ⟨3, 3⟩] ∧
      e.PointsIn wideBlankSource "t.spl" := by
  have places : (((compile wideBlankSource "t.spl").map fun _ => []).tryCatch fun e =>
      .ok (e.diagnostics.map Diagnostic.pos)).toOption = some [⟨2, 22⟩, ⟨3, 3⟩] := by
    decide +kernel
  cases outcome : compile wideBlankSource "t.spl" with
  | ok c =>
    rw [outcome] at places
    cases places
  | error e =>
    rw [outcome] at places
    exact ⟨e, rfl, Option.some.inj places, pointsIn_of_compile_error outcome⟩

end SplBasic
