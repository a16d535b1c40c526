import Mathlib.Data.List.DropRight
import SplBasic.Proofs.LexerExactness

/-!
# Reading on behind faults

Every text falls into blanks and chunks, whether or not its chunks are tokens. `Lexeme.IsChunk` says
how far a chunk reaches and `Chunked` which chunks a text has; neither mentions a scanner.

* `exists_chunks` : a text falls into chunks in exactly one way,
* `scanFrom_of_tokens`, `scanFrom_of_fault` : one reading gives all tokens, or stops behind the
  first chunk that is no token,
* `tokenizeCalls_resumes` : repeated readings report the faulty chunks one by one, then give the
  tokens behind the last of them, then nothing.
-/

namespace SplBasic

/-! ## How far a chunk reaches -/

namespace Lexeme

/-- The characters `word` are a chunk where `behind` follows them in a text. -/
inductive IsChunk : (word behind : List Char) → Prop
  | quoted {body behind : List Char} :
      (∀ c ∈ body, c ≠ '"' ∧ c ≠ '\n') → IsChunk ('"' :: (body ++ ['"'])) behind
  | unclosed {body behind : List Char} :
      (∀ c ∈ body, c ≠ '"' ∧ c ≠ '\n') → (∀ c ∈ behind.head?, c = '\n') →
      IsChunk ('"' :: body) behind
  | number {c : Char} {cs behind : List Char} :
      startsNumber c = true → (∀ d ∈ cs, isNumberChar d = true) →
      (∀ d ∈ behind.head?, isNumberChar d = false) → IsChunk (c :: cs) behind
  | word {c : Char} {cs behind : List Char} :
      startsWord c = true → (∀ d ∈ cs, isWordChar d = true) →
      (∀ d ∈ behind.head?, isWordChar d = false) → IsChunk (c :: cs) behind
  | sign {c : Char} {behind : List Char} :
      Text.isBlank c = false → c ≠ '"' → startsNumber c = false → startsWord c = false →
      IsChunk [c] behind

theorem isTextChar_iff {c : Char} : isTextChar c = true ↔ c ≠ '"' ∧ c ≠ '\n' := by
  simp [isTextChar]

/-- Without a quote behind it, a text has no closing quote. -/
theorem closingQuote_eq_nil {behind : List Char} (notQuote : ∀ c ∈ behind.head?, c ≠ '"') :
    closingQuote behind = [] := by
  unfold closingQuote
  split
  · exact absurd rfl (notQuote '"' rfl)
  · rfl

section Reach

variable {c : Char} {cs behind : List Char}

theorem startsNumber_ne_quote (opens : startsNumber c = true) : c ≠ '"' := by
  rintro rfl
  cases opens

theorem startsWord_ne_quote (opens : startsWord c = true) : c ≠ '"' := by
  rintro rfl
  cases opens

/-- A chunk is not empty. -/
theorem IsChunk.exists_cons {word : List Char} (isChunk : IsChunk word behind) :
    ∃ c cs, word = c :: cs := by
  cases isChunk with
  | quoted _ => exact ⟨_, _, rfl⟩
  | unclosed _ _ => exact ⟨_, _, rfl⟩
  | number _ _ _ => exact ⟨_, _, rfl⟩
  | word _ _ _ => exact ⟨_, _, rfl⟩
  | sign _ _ _ _ => exact ⟨_, _, rfl⟩

/-- A chunk is what the scanner cuts off a text. -/
theorem IsChunk.chunkTail_eq (isChunk : IsChunk (c :: cs) behind) :
    Text.isBlank c = false ∧ chunkTail c (cs ++ behind) = cs := by
  cases isChunk with
  | @quoted body _ inside =>
    have all : ∀ d ∈ body, isTextChar d = true := fun d member => isTextChar_iff.2 (inside d member)
    refine ⟨by decide, ?_⟩
    rw [List.append_assoc, List.singleton_append, chunkTail, if_pos rfl,
      List.takeWhile_append_of_pos all, List.dropWhile_append_of_pos all]
    simp [isTextChar, closingQuote]
  | unclosed inside ends =>
    have all : ∀ d ∈ cs, isTextChar d = true := fun d member => isTextChar_iff.2 (inside d member)
    have stops : ∀ d ∈ behind.head?, isTextChar d = false := by
      intro d next
      rw [ends d next]
      rfl
    -- the chunk ends at a line feed, which is no text character and no quote
    have taken := takeWhile_append_eq_left_iff.2 ⟨all, stops⟩
    have left : (cs ++ behind).dropWhile isTextChar = behind := by
      have whole := List.takeWhile_append_dropWhile (p := isTextChar) (l := cs ++ behind)
      rw [taken] at whole
      exact List.append_cancel_left whole
    have noQuote : closingQuote behind = [] := by
      refine closingQuote_eq_nil fun d next => ?_
      rw [ends d next]
      decide
    exact ⟨by decide, by rw [chunkTail, if_pos rfl, taken, left, noQuote, List.append_nil]⟩
  | number opens inside ends =>
    have cut : chunkTail c (cs ++ behind) = (cs ++ behind).takeWhile isNumberChar := by
      simp [chunkTail, startsNumber_ne_quote opens, opens]
    exact ⟨isBlank_eq_false_of_startsNumber opens,
      cut.trans (takeWhile_append_eq_left_iff.2 ⟨inside, ends⟩)⟩
  | word opens inside ends =>
    have cut : chunkTail c (cs ++ behind) = (cs ++ behind).takeWhile isWordChar := by
      simp [chunkTail, startsWord_ne_quote opens, startsNumber_eq_false_of_startsWord opens, opens]
    exact ⟨isBlank_eq_false_of_isWordChar (isWordChar_of_startsWord opens),
      cut.trans (takeWhile_append_eq_left_iff.2 ⟨inside, ends⟩)⟩
  | sign notBlank notQuote notNumber notWord =>
    exact ⟨notBlank, by simp [chunkTail, notQuote, notNumber, notWord]⟩

/-- What the scanner cuts off behind a quote is a chunk, with or without a closing quote. -/
theorem isChunk_of_quote (cut : chunkTail '"' (cs ++ behind) = cs) :
    IsChunk ('"' :: cs) behind := by
  rw [chunkTail, if_pos rfl] at cut
  have whole := List.takeWhile_append_dropWhile (p := isTextChar) (l := cs ++ behind)
  have inside : ∀ d ∈ (cs ++ behind).takeWhile isTextChar, d ≠ '"' ∧ d ≠ '\n' :=
    fun d member => isTextChar_iff.1 (List.mem_takeWhile_imp member)
  have stops := List.head?_dropWhile_not isTextChar (cs ++ behind)
  -- from here on it only matters that `body` and `left` make up the text
  generalize (cs ++ behind).takeWhile isTextChar = body at *
  generalize (cs ++ behind).dropWhile isTextChar = left at *
  by_cases closed : ∃ rest, left = '"' :: rest
  · rcases closed with ⟨rest, rfl⟩
    rw [← cut]
    exact .quoted inside
  · have noQuote : ∀ d ∈ left.head?, d ≠ '"' := by
      rintro d next rfl
      exact closed ⟨left.tail, (List.cons_head?_tail next).symm⟩
    rw [closingQuote_eq_nil noQuote, List.append_nil] at cut
    subst cut
    rw [List.append_cancel_left whole] at stops noQuote
    refine .unclosed inside fun d next => ?_
    rw [Option.mem_def] at next
    have notText : isTextChar d = false := by simpa [next] using stops
    by_contra notFeed
    rw [isTextChar_iff.2 ⟨noQuote d next, notFeed⟩] at notText
    cases notText

/-- A chunk starts where no blank is and ends where the lexer ends it. -/
theorem isChunk_iff :
    IsChunk (c :: cs) behind ↔ Text.isBlank c = false ∧ chunkTail c (cs ++ behind) = cs := by
  refine ⟨IsChunk.chunkTail_eq, ?_⟩
  rintro ⟨notBlank, cut⟩
  by_cases isQuote : c = '"'
  · subst isQuote
    exact isChunk_of_quote cut
  cases isNumber : startsNumber c with
  | true =>
    rw [chunkTail, if_neg isQuote, if_pos isNumber] at cut
    have reach := takeWhile_append_eq_left_iff.1 cut
    exact .number isNumber reach.1 reach.2
  | false =>
    cases isWord : startsWord c with
    | true =>
      rw [chunkTail, if_neg isQuote, if_neg (by simp [isNumber]), if_pos isWord] at cut
      have reach := takeWhile_append_eq_left_iff.1 cut
      exact .word isWord reach.1 reach.2
    | false =>
      rw [chunkTail, if_neg isQuote, if_neg (by simp [isNumber]), if_neg (by simp [isWord])] at cut
      subst cut
      exact .sign notBlank isQuote isNumber isWord

/-- What the scanner leaves behind a chunk is what follows the chunk. -/
theorem IsChunk.chunkRest_eq (isChunk : IsChunk (c :: cs) behind) :
    chunkRest c (cs ++ behind) = behind := by
  simp [chunkRest, isChunk.chunkTail_eq.2]

end Reach

/-! ## Legal tokens -/

/-- The characters are a spelling of some kind of token. -/
def IsToken (word : List Char) : Prop :=
  ∃ kind, word ∈ spellings kind

/-- At the end of a text, chunks that are judged to be tokens are spellings, and nothing else is. -/
theorem chunk_alone_iff {c : Char} {cs : List Char} {kind : TokenKind} :
    chunkTail c cs = cs ∧ classify c cs = .ok kind ↔ c :: cs ∈ spellings kind := by
  have reach : chunkTail c (cs ++ []) = cs ∧ classify c cs = .ok kind ↔ _ := chunk_iff
  simpa using reach

theorem classify_of_spelling {c : Char} {cs : List Char} {kind : TokenKind}
    (spelt : c :: cs ∈ spellings kind) : classify c cs = .ok kind :=
  (chunk_alone_iff.2 spelt).2

/-- A token is a chunk of its own that the lexer can classify. -/
theorem isToken_cons_iff {c : Char} {cs : List Char} :
    IsToken (c :: cs) ↔ chunkTail c cs = cs ∧ (classify c cs).isOk = true := by
  constructor
  · rintro ⟨kind, spelt⟩
    have cut := chunk_alone_iff.2 spelt
    exact ⟨cut.1, by rw [cut.2]; rfl⟩
  · rintro ⟨cut, judged⟩
    cases spells : classify c cs with
    | error fault =>
      rw [spells] at judged
      cases judged
    | ok kind => exact ⟨kind, chunk_alone_iff.1 ⟨cut, spells⟩⟩

instance : DecidablePred IsToken
  | [] => .isFalse fun ⟨_, spelt⟩ => by
    rcases exists_opens_of_spelling spelt with ⟨_, _, empty, _⟩
    cases empty
  | c :: cs => decidable_of_iff (chunkTail c cs = cs ∧ (classify c cs).isOk = true)
    isToken_cons_iff.symm

end Lexeme

/-! ## The chunks of a text -/

/-- A chunk of a text, with all that stands in front of it in the text. -/
structure Chunk where
  front : List Char
  word : List Char

namespace Chunk

def pos (chunk : Chunk) : Position :=
  Text.place chunk.front

def IsToken (chunk : Chunk) : Prop :=
  Lexeme.IsToken chunk.word

instance : DecidablePred IsToken :=
  fun chunk => inferInstanceAs (Decidable (Lexeme.IsToken chunk.word))

/-- The token is the one that the chunk spells in a file. -/
structure Spells (file : String) (chunk : Chunk) (t : Token) : Prop where
  spelt : chunk.word ∈ Lexeme.spellings t.kind
  lexeme : t.lexeme = String.ofList chunk.word
  inFile : t.file = file
  located : t.pos = chunk.pos

end Chunk

/-- The text `rest`, which stands behind the characters `front`, falls into blanks and the given
chunks. -/
inductive Chunked : (front rest : List Char) → List Chunk → Prop
  | done (front : List Char) : Chunked front [] []
  | blank {c : Char} {front cs : List Char} {chunks : List Chunk} :
      Text.isBlank c = true → Chunked (front ++ [c]) cs chunks → Chunked front (c :: cs) chunks
  | chunk {front word behind : List Char} {chunks : List Chunk} :
      Lexeme.IsChunk word behind → Chunked (front ++ word) behind chunks →
      Chunked front (word ++ behind) (⟨front, word⟩ :: chunks)

def faultyChunks (chunks : List Chunk) : List Chunk :=
  chunks.filter fun chunk => ¬ chunk.IsToken

/-- The chunks behind the last one that is no token. -/
def chunksBehindFaults (chunks : List Chunk) : List Chunk :=
  chunks.rtakeWhile fun chunk => chunk.IsToken

section Chunked

variable {c : Char} {front rest cs : List Char} {chunks : List Chunk}

/-- A text that is used up has no more chunks. -/
theorem chunked_nil_iff : Chunked front [] chunks ↔ chunks = [] := by
  constructor
  · intro chunked
    generalize empty : [] = rest at chunked
    cases chunked with
    | done front => rfl
    | blank _ _ => cases empty
    | chunk isChunk _ =>
      rcases isChunk.exists_cons with ⟨_, _, rfl⟩
      cases empty
  · rintro rfl
    exact .done front

/-- Blanks in front of a chunk are passed over. -/
theorem chunked_blank_iff (blank : Text.isBlank c = true) :
    Chunked front (c :: cs) chunks ↔ Chunked (front ++ [c]) cs chunks := by
  constructor
  · intro chunked
    generalize text : c :: cs = rest at chunked
    cases chunked with
    | done front => cases text
    | blank _ more =>
      cases text
      exact more
    | chunk isChunk _ =>
      rcases isChunk.exists_cons with ⟨_, _, rfl⟩
      cases text
      rw [isChunk.chunkTail_eq.1] at blank
      cases blank
  · exact .blank blank

/-- The next chunk is the one that the lexer cuts off. -/
theorem chunked_cons_iff (notBlank : Text.isBlank c = false) :
    Chunked front (c :: cs) chunks ↔
      ∃ more, chunks = ⟨front, c :: Lexeme.chunkTail c cs⟩ :: more ∧
        Chunked (front ++ c :: Lexeme.chunkTail c cs) (Lexeme.chunkRest c cs) more := by
  constructor
  · intro chunked
    -- one of the three rules must have been applied to a text that starts with `c`
    generalize text : c :: cs = rest at chunked
    cases chunked with
    | done front => cases text
    | blank blank _ =>
      cases text
      rw [notBlank] at blank
      cases blank
    | chunk isChunk more =>
      rcases isChunk.exists_cons with ⟨_, _, rfl⟩
      rw [List.cons_append] at text
      rcases List.cons.inj text with ⟨rfl, rfl⟩
      rw [isChunk.chunkTail_eq.2, isChunk.chunkRest_eq]
      exact ⟨_, rfl, more⟩
  · rintro ⟨more, rfl, chunked⟩
    have whole := Lexeme.chunkTail_append_chunkRest c cs
    have isChunk : Lexeme.IsChunk (c :: Lexeme.chunkTail c cs) (Lexeme.chunkRest c cs) :=
      Lexeme.isChunk_iff.2 ⟨notBlank, by rw [whole]⟩
    have step := Chunked.chunk isChunk chunked
    rwa [List.cons_append, whole] at step

/-- A text falls into chunks in exactly one way. -/
theorem exists_chunks (front rest : List Char) :
    ∃ chunks, ∀ others, Chunked front rest others ↔ others = chunks := by
  -- a chunk can be longer than one character, so the recursion is on the length of the text
  induction size : rest.length using Nat.strongRecOn generalizing front rest with
  | ind n ih =>
    subst size
    cases rest with
    | nil => exact ⟨[], fun others => chunked_nil_iff⟩
    | cons c cs =>
      cases blank : Text.isBlank c with
      | true =>
        rcases ih cs.length (by simp) (front ++ [c]) cs rfl with ⟨chunks, only⟩
        exact ⟨chunks, fun others => (chunked_blank_iff blank).trans (only others)⟩
      | false =>
        have shorter := Lexeme.length_chunkRest_le c cs
        rcases ih _ (by simpa using Nat.lt_succ_of_le shorter)
          (front ++ c :: Lexeme.chunkTail c cs) _ rfl with ⟨chunks, only⟩
        refine ⟨⟨front, c :: Lexeme.chunkTail c cs⟩ :: chunks, fun others => ?_⟩
        simp only [chunked_cons_iff blank, only, exists_eq_right]

end Chunked

/-! ## One reading -/

section Reading

variable (file : String) {front rest : List Char} {chunks : List Chunk}

/-- A text without faults is read to its end, and its tokens are its chunks. -/
theorem scanFrom_of_tokens (chunked : Chunked front rest chunks)
    (tokens : ∀ chunk ∈ chunks, chunk.IsToken) :
    ∃ ts, scanFrom file rest (Text.place front) = ⟨.ok ts, ⟨[], Text.place (front ++ rest)⟩⟩ ∧
      List.Forall₂ (Chunk.Spells file) chunks ts := by
  induction chunked with
  | done front => exact ⟨[], by simp, .nil⟩
  | @blank c front cs chunks blank _ ih =>
    rcases ih tokens with ⟨ts, read, spelt⟩
    refine ⟨ts, ?_, spelt⟩
    rw [scanFrom_blank blank, ← Text.place_concat, read]
    simp
  | @chunk front word behind chunks isChunk _ ih =>
    rcases List.forall_mem_cons.1 tokens with ⟨⟨kind, isSpelling⟩, later⟩
    rcases ih later with ⟨ts, read, spelt⟩
    rcases isChunk.exists_cons with ⟨c, cs, rfl⟩
    -- the lexer cuts off this chunk and finds it to be a token
    rcases isChunk.chunkTail_eq with ⟨notBlank, cut⟩
    have judged := Lexeme.classify_of_spelling isSpelling
    refine ⟨⟨kind, file, Text.place front, String.ofList (c :: cs)⟩ :: ts, ?_,
      .cons ⟨isSpelling, rfl, rfl, rfl⟩ spelt⟩
    rw [List.cons_append, scanFrom_token notBlank (by rw [cut]; exact judged), cut,
      isChunk.chunkRest_eq, ← Text.place_append, read]
    simp [ScanResult.prepend, Except.map]

/-- The first chunk that is no token ends a reading; what is left are the chunks behind it. -/
theorem scanFrom_of_fault {sound more : List Chunk} {bad : Chunk}
    (chunked : Chunked front rest (sound ++ bad :: more))
    (tokens : ∀ chunk ∈ sound, chunk.IsToken) (faulty : ¬ bad.IsToken) :
    ∃ fault behind, scanFrom file rest (Text.place front) =
        ⟨.error ⟨fault, bad.pos⟩, ⟨behind, Text.place (bad.front ++ bad.word)⟩⟩ ∧
      bad.front ++ bad.word ++ behind = front ++ rest ∧
      Chunked (bad.front ++ bad.word) behind more := by
  -- the induction is on the chunks, of which `sound` are read before the fault
  generalize listed : sound ++ bad :: more = chunks at chunked
  induction chunked generalizing sound with
  | done front => simp at listed
  | @blank c front cs chunks blank _ ih =>
    rcases ih tokens listed with ⟨fault, behind, read, whole, later⟩
    refine ⟨fault, behind, ?_, by simpa using whole, later⟩
    rw [scanFrom_blank blank, ← Text.place_concat, read]
  | @chunk front word behind chunks isChunk later ih =>
    rcases isChunk.exists_cons with ⟨c, cs, rfl⟩
    rcases isChunk.chunkTail_eq with ⟨notBlank, cut⟩
    cases sound with
    | nil =>
      cases listed
      -- this is the faulty chunk, as none of the sound ones is left
      have judged : ∃ fault, Lexeme.classify c cs = .error fault := by
        cases spells : Lexeme.classify c cs with
        | error fault => exact ⟨fault, rfl⟩
        | ok kind => exact absurd ⟨kind, (Lexeme.chunk_iff.1 ⟨cut, spells⟩).1⟩ faulty
      rcases judged with ⟨fault, judged⟩
      refine ⟨fault, behind, ?_, by simp, later⟩
      rw [List.cons_append, scanFrom_fault notBlank (by rw [cut]; exact judged), cut,
        isChunk.chunkRest_eq, ← Text.place_append]
      rfl
    | cons first sound =>
      cases listed
      rcases List.forall_mem_cons.1 tokens with ⟨⟨kind, isSpelling⟩, tokens⟩
      rcases ih tokens rfl with ⟨fault, left, read, whole, later⟩
      have judged := Lexeme.classify_of_spelling isSpelling
      refine ⟨fault, left, ?_, by simpa using whole, later⟩
      rw [List.cons_append, scanFrom_token notBlank (by rw [cut]; exact judged), cut,
        isChunk.chunkRest_eq, ← Text.place_append, read]
      rfl

/-- A text has no fault, or a first one. -/
theorem chunks_cases (chunks : List Chunk) :
    (∀ chunk ∈ chunks, chunk.IsToken) ∨
      ∃ sound bad more, chunks = sound ++ bad :: more ∧ (∀ chunk ∈ sound, chunk.IsToken) ∧
        ¬ bad.IsToken := by
  cases found : chunks.find? fun chunk => ¬ chunk.IsToken with
  | none =>
    left
    simpa using found
  | some bad =>
    right
    rcases List.find?_eq_some_iff_append.1 found with ⟨faulty, sound, more, split, tokens⟩
    exact ⟨sound, bad, more, split, by simpa using tokens, by simpa using faulty⟩

end Reading

/-! ## Reading after reading -/

namespace Cursor

/-- Where a reader stands after a number of readings. -/
def after (file : String) : Nat → Cursor → Cursor
  | 0, cursor => cursor
  | n + 1, cursor => after file n (cursor.scan file).cursor

/-- The line and the column of the cursor are those of its place in `text`. -/
def StandsIn (text : List Char) (cursor : Cursor) : Prop :=
  ∃ before, before ++ cursor.rest = text ∧ cursor.pos = Text.place before

variable {file : String} {text : List Char}

/-- One reading leaves the cursor at a place in the text. -/
theorem StandsIn.scan {cursor : Cursor} (stands : cursor.StandsIn text) :
    (cursor.scan file).cursor.StandsIn text := by
  rcases cursor with ⟨rest, pos⟩
  rcases stands with ⟨front, rfl, rfl⟩
  rcases exists_chunks front rest with ⟨chunks, only⟩
  have chunked := (only chunks).2 rfl
  rcases chunks_cases chunks with tokens | ⟨sound, bad, more, rfl, tokens, faulty⟩
  · rcases scanFrom_of_tokens file chunked tokens with ⟨ts, read, _⟩
    exact ⟨front ++ rest, by simp [Cursor.scan, read], by simp [Cursor.scan, read]⟩
  · rcases scanFrom_of_fault file chunked tokens faulty with ⟨_, behind, read, whole, _⟩
    exact ⟨bad.front ++ bad.word, by simp [Cursor.scan, read, ← whole],
      by simp [Cursor.scan, read]⟩

/-- Calls of the lexer move along the text. -/
theorem StandsIn.after {cursor : Cursor} (stands : cursor.StandsIn text) (calls : Nat) :
    (cursor.after file calls).StandsIn text := by
  induction calls generalizing cursor with
  | zero => exact stands
  | succ calls ih => exact ih stands.scan

theorem standsIn_ofText (text : String) : (Cursor.ofText text).StandsIn text.toList :=
  ⟨[], rfl, rfl⟩

end Cursor

/-- The readings of a text go on from cursor to cursor. -/
theorem getElem?_tokenizeCalls {text file : String} {calls i : Nat} (called : i < calls) :
    (tokenizeCalls text file calls)[i]? =
      some ((((Cursor.ofText text).after file i).scan file).tokens.mapError
        (LexError.ofFault text file)) := by
  have run (cursor : Cursor) : (tokenizeCalls.go text file calls cursor)[i]? =
      some (((cursor.after file i).scan file).tokens.mapError (LexError.ofFault text file)) := by
    induction calls generalizing cursor i with
    | zero => cases called
    | succ calls ih =>
      cases i with
      | zero => rfl
      | succ i => exact ih (Nat.lt_of_succ_lt_succ called) _
  exact run _

/-- What reading number `i`, counted from 0, answers for a text of the given chunks: the place of
faulty chunk number `i`, or, once there is none left, the tokens behind the last one, and nothing
from then on. -/
structure AnswersCall (file : String) (chunks : List Chunk) (i : Nat)
    (answer : Except LexError (List Token)) : Prop where
  fault : ∀ chunk, (faultyChunks chunks)[i]? = some chunk →
    ∃ e, answer = .error e ∧ e.file = file ∧ e.pos = chunk.pos
  tokens : i = (faultyChunks chunks).length →
    ∃ ts, answer = .ok ts ∧ List.Forall₂ (Chunk.Spells file) (chunksBehindFaults chunks) ts
  done : (faultyChunks chunks).length < i → answer = .ok []

/-- Tokens are not faulty. -/
theorem faultyChunks_of_tokens {chunks : List Chunk} (tokens : ∀ chunk ∈ chunks, chunk.IsToken) :
    faultyChunks chunks = [] := by
  simpa [faultyChunks] using tokens

/-- The first chunk that is no token is the first fault. -/
theorem faultyChunks_append {sound more : List Chunk} {bad : Chunk}
    (tokens : ∀ chunk ∈ sound, chunk.IsToken) (faulty : ¬ bad.IsToken) :
    faultyChunks (sound ++ bad :: more) = bad :: faultyChunks more := by
  have none : (sound.filter fun chunk => ¬ chunk.IsToken) = [] := faultyChunks_of_tokens tokens
  rw [faultyChunks, List.filter_append, none, List.nil_append,
    List.filter_cons_of_pos (by simpa using faulty)]
  rfl

/-- What stands behind an element that is not taken plays no role. -/
theorem takeWhile_append_cons_of_neg {α : Type} {p : α → Bool} {a : α} (ends : p a = false)
    (xs ys : List α) : (xs ++ a :: ys).takeWhile p = xs.takeWhile p := by
  induction xs with
  | nil => simp [ends]
  | cons x xs ih => simp only [List.cons_append, List.takeWhile_cons, ih]

/-- What stands behind a fault is what stands behind the later ones. -/
theorem chunksBehindFaults_append {sound more : List Chunk} {bad : Chunk}
    (faulty : ¬ bad.IsToken) :
    chunksBehindFaults (sound ++ bad :: more) = chunksBehindFaults more := by
  simp only [chunksBehindFaults, List.rtakeWhile, List.reverse_append, List.reverse_cons,
    List.append_assoc, List.singleton_append]
  rw [takeWhile_append_cons_of_neg (by simpa using faulty)]

section Calls

variable {text file : String}

/-- At the end of the text, nothing more is read. -/
theorem after_done (pos : Position) (calls : Nat) :
    Cursor.after file calls ⟨[], pos⟩ = ⟨[], pos⟩ := by
  induction calls with
  | zero => rfl
  | succ calls ih =>
    rw [Cursor.after, Cursor.scan, scanFrom_nil]
    exact ih

/-- The readings that follow a place in a text answer as the chunks behind that place say. -/
theorem answersCall_of_chunked {front rest : List Char} {chunks : List Chunk}
    (chunked : Chunked front rest chunks) (i : Nat) :
    AnswersCall file chunks i
      (((Cursor.after file i ⟨rest, Text.place front⟩).scan file).tokens.mapError
        (LexError.ofFault text file)) := by
  induction i generalizing front rest chunks with
  | zero =>
    rcases chunks_cases chunks with tokens | ⟨sound, bad, more, rfl, tokens, faulty⟩
    · rcases scanFrom_of_tokens file chunked tokens with ⟨ts, read, spelt⟩
      have all : chunksBehindFaults chunks = chunks :=
        List.rtakeWhile_eq_self_iff.2 (by simpa using tokens)
      rw [Cursor.after, Cursor.scan, read]
      refine ⟨?_, fun _ => ⟨ts, rfl, by rwa [all]⟩, ?_⟩
      · simp [faultyChunks_of_tokens tokens]
      · simp [faultyChunks_of_tokens tokens]
    · rcases scanFrom_of_fault file chunked tokens faulty with ⟨fault, _, read, _, _⟩
      rw [Cursor.after, Cursor.scan, read]
      refine ⟨?_, ?_, ?_⟩
      · rintro chunk first
        rw [faultyChunks_append tokens faulty, List.getElem?_cons_zero, Option.some.injEq] at first
        subst first
        exact ⟨_, rfl, rfl, rfl⟩
      · simp [faultyChunks_append tokens faulty]
      · simp
  | succ i ih =>
    rcases chunks_cases chunks with tokens | ⟨sound, bad, more, rfl, tokens, faulty⟩
    · rcases scanFrom_of_tokens file chunked tokens with ⟨ts, read, _⟩
      have first : Cursor.scan file ⟨rest, Text.place front⟩ = _ := read
      -- the first reading took everything, so there is nothing left for the later ones
      rw [Cursor.after, first, after_done, Cursor.scan, scanFrom_nil]
      refine ⟨?_, ?_, fun _ => rfl⟩
      · simp [faultyChunks_of_tokens tokens]
      · simp [faultyChunks_of_tokens tokens]
    · rcases scanFrom_of_fault file chunked tokens faulty with ⟨_, _, read, _, later⟩
      have first : Cursor.scan file ⟨rest, Text.place front⟩ = _ := read
      -- the first reading stopped behind its fault, and the later ones count from there
      have answers := ih later
      rw [Cursor.after, first]
      refine ⟨?_, ?_, ?_⟩
      · rw [faultyChunks_append tokens faulty, List.getElem?_cons_succ]
        exact answers.fault
      · rw [faultyChunks_append tokens faulty, chunksBehindFaults_append faulty, List.length_cons,
          Nat.add_right_cancel_iff]
        exact answers.tokens
      · rw [faultyChunks_append tokens faulty, List.length_cons, Nat.add_lt_add_iff_right]
        exact answers.done

end Calls

/-- A text falls into chunks in one way. Reading it again and again reports the chunks that are no
tokens, one with each reading; the next reading gives the tokens behind the last of them, and all
further ones give nothing. After each reading, line and column are those of the place reached. -/
theorem tokenizeCalls_resumes (text file : String) :
    ∃ chunks, (∀ others, Chunked [] text.toList others ↔ others = chunks) ∧
      (∀ calls i, i < calls → ∃ answer, (tokenizeCalls text file calls)[i]? = some answer ∧
        AnswersCall file chunks i answer) ∧
      ∀ calls, ((Cursor.ofText text).after file calls).StandsIn text.toList := by
  rcases exists_chunks [] text.toList with ⟨chunks, only⟩
  refine ⟨chunks, only, fun calls i called => ⟨_, getElem?_tokenizeCalls called, ?_⟩, ?_⟩
  · exact answersCall_of_chunked ((only chunks).2 rfl) i
  · exact (Cursor.standsIn_ofText text).after

end SplBasic
