import SplBasic.Proofs.Lookahead
import SplBasic.Proofs.ParserBounds
import SplBasic.Proofs.SentenceTrees

/-!
# What the parser accepts, and where it stops

* `parse_ok_iff_sentence` : tokens are parsed exactly if their kinds are a sentence of the grammar,
  and then to the one tree that they spell,
* `parse_error_at_first_offender` : otherwise the error stands at the first token behind which no
  sentence can go on.

The second half of the latter rests on two facts about runs of the parser: a run depends on what it
reads and on one token more, and it does not depend on the bound. So a sentence that agrees with the
tokens up to the place of an error would be refused there as well.
-/

namespace SplBasic

open ContextFreeGrammar

/-! ## Acceptance -/

/-- The parser reads the programs that the tokens spell, and no others. -/
theorem parse_eq_ok_iff {tokens : List Token} {p : Program} :
    parse tokens = .ok p ↔ p.SpeltBy (significant tokens) ∧ p.source = ⟨tokens⟩ := by
  constructor
  · intro parsed
    have spelt := spelt_of_parse parsed
    have again := parse_of_spelt spelt
    rw [parsed, Except.ok.injEq] at again
    exact ⟨spelt, congrArg Program.source again⟩
  · rintro ⟨spelt, source⟩
    have parsed := parse_of_spelt spelt
    rwa [← source] at parsed

/-- What is parsed is a sentence. -/
theorem mem_language_of_parse {tokens : List Token} {p : Program} (parsed : parse tokens = .ok p) :
    (significant tokens).map Token.kind ∈ grammar.language := by
  simp only [parse] at parsed
  split at parsed
  · exact mem_language_of_program ‹_›
  · cases parsed

/-- Tokens are parsed exactly if their kinds are a sentence, and to the only tree they spell. -/
theorem parse_ok_iff_sentence (tokens : List Token) :
    ((∃ p, parse tokens = .ok p) ↔ (seenTokens tokens).map Token.kind ∈ grammar.language) ∧
      (∀ p, parse tokens = .ok p ↔ p.SpeltBy (seenTokens tokens) ∧ p.source = ⟨tokens⟩) ∧
      ∀ p q : Program, p.SpeltBy (seenTokens tokens) → q.SpeltBy (seenTokens tokens) →
        q = { p with source := q.source } := by
  rw [← significant_eq_seenTokens]
  refine ⟨⟨?_, ?_⟩, fun p => parse_eq_ok_iff, ?_⟩
  · rintro ⟨p, parsed⟩
    exact mem_language_of_parse parsed
  · intro sentence
    rcases exists_speltBy_of_mem_language sentence with ⟨p, spelt⟩
    exact ⟨_, parse_of_spelt spelt⟩
  · intro p q spelt spelt'
    -- both are what the parser returns, up to the text they are from
    have parsed := parse_of_spelt spelt
    rw [parse_of_spelt spelt', Except.ok.injEq] at parsed
    calc
      q = { { q with source := ⟨tokens⟩ } with source := q.source } := rfl
      _ = { { p with source := ⟨tokens⟩ } with source := q.source } := by rw [parsed]
      _ = { p with source := q.source } := rfl

/-! ## The end mark -/

theorem eof_not_mem_production (s : GrammarSymbol) :
    ∀ u ∈ productions s, Symbol.terminal .eof ∉ u := by
  cases s <;> decide

/-- No derivation brings in an end mark. -/
theorem eof_not_mem_of_derives {u v : Production} (derives : grammar.Derives u v)
    (absent : Symbol.terminal .eof ∉ u) : Symbol.terminal .eof ∉ v := by
  induction derives with
  | refl => exact absent
  | tail _ produces ih =>
    rcases produces with ⟨r, isRule, rewrites⟩
    rcases ContextFreeRule.rewrites_iff.1 rewrites with ⟨before, behind, rfl, rfl⟩
    have inRule := eof_not_mem_production r.input r.output (mem_rules_iff.1 isRule)
    simp only [List.mem_append, not_or] at ih ⊢
    exact ⟨⟨ih.1.1, inRule⟩, ih.2⟩

/-- The end mark stands in no sentence. -/
theorem eof_not_mem_sentence {w : List TokenKind} (sentence : w ∈ grammar.language) : .eof ∉ w := by
  have absent : Symbol.terminal .eof ∉ ([.nonterminal .program] : Production) := by decide
  intro member
  exact eof_not_mem_of_derives sentence absent (List.mem_map_of_mem member)

/-- An end mark is of the kind for the end. -/
theorem endMark_kind (tokens : List Token) : (endMark tokens).kind = .eof := by
  unfold endMark
  split
  · rename_i found
    simpa using List.find?_some found
  · split
    · rfl
    · rfl

/-- No significant token is an end mark. -/
theorem significant_kind {tokens : List Token} {t : Token} (member : t ∈ significant tokens) :
    t.kind ≠ .eof := by
  have passes := List.all_takeWhile (p := fun token : Token => token.kind ≠ .eof)
    (l := tokens.filter fun token => token.kind ≠ .trivia)
  simpa using List.all_eq_true.1 passes t member

/-- The tokens that the grammar sees, with the end mark behind them. -/
def markedTokens (tokens : List Token) : List Token :=
  seenTokens tokens ++ [closingMark none tokens]

theorem markedTokens_eq (tokens : List Token) :
    markedTokens tokens = significant tokens ++ [endMark tokens] := by
  rw [markedTokens, significant_eq_seenTokens, endMark_eq_closingMark]

/-! ## Failure -/

def tokensOfKinds (w : List TokenKind) : List Token :=
  w.map fun kind => ⟨kind, "", .start, ""⟩

@[simp] theorem kinds_tokensOfKinds (w : List TokenKind) :
    (tokensOfKinds w).map Token.kind = w := by
  simp [tokensOfKinds, Function.comp_def]

/-- Behind what was read up to a failure, no sentence goes on with the token that comes next. -/
theorem not_prefix_of_program {source : SourceText} {front more : List Token} {t : Token}
    {e : Expected} {bound : Nat} (enough : (front ++ t :: more).length ≤ bound)
    (stopped : Parser.program source bound (front ++ t :: more) = .error e (t :: more))
    {w : List TokenKind} (sentence : w ∈ grammar.language) :
    ¬ (front ++ [t]).map Token.kind <+: w := by
  rintro ⟨v, rfl⟩
  -- other tokens with the kinds of the sentence, equal to the given ones up to the next token
  let rest' := t :: tokensOfKinds v
  have kinds : (front ++ rest').map Token.kind = (front ++ [t]).map Token.kind ++ v := by
    simp [rest']
  rw [← kinds] at sentence
  rcases exists_speltBy_of_mem_language sentence with ⟨p, spelt⟩
  let most := max bound (front ++ rest').length
  have accepted := Parser.program_complete spelt source (le_max_right bound _)
  have refused : Parser.program source most (front ++ t :: more) = .error e (t :: more) := by
    rw [← stopped]
    exact Parser.program_bound source (enough.trans (le_max_left _ _)) enough
  have mirrors : Parser.Mirrors .refl (Parser.program source most) (Parser.program source most) _ :=
    Parser.program_mirrors source source most
  rcases mirrors.error refused with ⟨front', whole, mirrored⟩
  have sameFront : front' = front := (List.append_cancel_right whole).symm
  have refused' := mirrored rest' rfl
  rw [sameFront, show List.map Relabelling.refl.token front = front from List.map_id front,
    accepted] at refused'
  cases refused'

/-- A program is rejected where its parser stops. -/
theorem program_of_parse_error {tokens : List Token} {e : ParseError}
    (failed : parse tokens = .error e) :
    ∃ rest, Parser.program ⟨tokens⟩ ((significant tokens).length + 1) (significant tokens) =
      .error e.expected rest ∧ e.found = rest.headD (endMark tokens) := by
  simp only [parse] at failed
  split at failed
  · cases failed
  · rename_i expected rest stopped
    cases failed
    exact ⟨rest, stopped, rfl⟩

/-- A parse error stands at the first token that no sentence, followed by the end mark, has behind
the tokens before it. -/
theorem parse_error_at_first_offender {tokens : List Token} {e : ParseError}
    (failed : parse tokens = .error e) :
    ∃ i t, (markedTokens tokens)[i]? = some t ∧ e.found = t ∧
      (∃ w ∈ grammar.language, ((markedTokens tokens).take i).map Token.kind <+: w) ∧
      ∀ w ∈ grammar.language,
        ¬ ((markedTokens tokens).take (i + 1)).map Token.kind <+: w ++ [.eof] := by
  rcases program_of_parse_error failed with ⟨rest, stopped, found⟩
  rcases viable_of_program stopped with ⟨front, whole, viable⟩
  have marked : markedTokens tokens = front ++ (rest ++ [endMark tokens]) := by
    rw [markedTokens_eq, whole, List.append_assoc]
  refine ⟨front.length, e.found, ?_, rfl, ?_, ?_⟩
  · rw [marked, List.getElem?_append_right le_rfl, Nat.sub_self, found]
    cases rest with
    | nil => rfl
    | cons t more => rfl
  · rwa [marked, List.take_left]
  · intro w sentence
    rw [marked, List.take_length_add_append]
    cases rest with
    | nil =>
      -- all tokens were read, and they are no sentence themselves
      intro begins
      have kinds : (front ++ [endMark tokens]).map Token.kind = front.map Token.kind ++ [.eof] := by
        simp [endMark_kind]
      rw [List.nil_append, List.take_one, List.head?_cons, Option.toList_some, kinds] at begins
      rcases List.prefix_concat_iff.1 begins with same | begins
      · have all : (significant tokens).map Token.kind = w := by
          rw [whole, List.append_nil]
          exact List.append_cancel_right same
        rcases exists_speltBy_of_mem_language (all ▸ sentence) with ⟨p, spelt⟩
        rw [parse_of_spelt spelt] at failed
        cases failed
      · exact eof_not_mem_sentence sentence (begins.subset (by simp))
    | cons t more =>
      intro begins
      have listed : t ∈ significant tokens := by simp [whole]
      have notEof : t.kind ≠ .eof := significant_kind listed
      rw [List.cons_append, List.take_one, List.head?_cons, Option.toList_some] at begins
      rcases List.prefix_concat_iff.1 begins with same | begins
      · rw [List.map_append] at same
        exact notEof (List.cons.inj (List.append_inj_right' same rfl)).1
      · rw [whole] at stopped
        exact not_prefix_of_program (by simp) stopped sentence begins

/-- An operation whose second operand is missing, with tokens in between that the grammar does not
see. -/
def brokenTokens : List Token :=
  tokensOfKinds [.keyword .mainWord, .trivia, .keyword .beginWord, .varName, .punctuation .assign,
    .operator (.binary .add), .punctuation .lparen, .numLit, .punctuation .comma, .trivia,
    .punctuation .rparen, .keyword .endWord, .eof]

/-- The closing bracket is where the sentence breaks. -/
theorem parse_error_at_missing_operand :
    ∃ e, parse brokenTokens = .error e ∧ e.found.kind = .punctuation .rparen ∧
      ∃ i t, (markedTokens brokenTokens)[i]? = some t ∧ e.found = t ∧
        (∃ w ∈ grammar.language, ((markedTokens brokenTokens).take i).map Token.kind <+: w) ∧
        ∀ w ∈ grammar.language,
          ¬ ((markedTokens brokenTokens).take (i + 1)).map Token.kind <+: w ++ [.eof] := by
  have failed : parse brokenTokens =
      .error ⟨.atom, ⟨.punctuation .rparen, "", .start, ""⟩, ""⟩ := by
    decide +kernel
  exact ⟨_, failed, rfl, parse_error_at_first_offender failed⟩

end SplBasic
