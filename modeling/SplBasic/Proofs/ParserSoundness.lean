import SplBasic.Proofs.Grammar

/-!
# Parsed programs are spelt by their tokens

`Parser.Sound parser spelt` : whatever the parser reads off the front of its input spells the tree
it returns. Every nonterminal is sound for its grammar relation, and `spelt_of_parse` follows for
whole programs. What the parser is run on and where it stops are what the grammar sees of a list and
what closes it (`significant_eq_seenTokens`, `endMark_eq_closingMark`).
-/

namespace SplBasic

namespace Parser

variable {α β : Type}

/-! ## Taking parsers apart -/

/-- A parser followed by another one gives a result if both do, one behind the other. -/
theorem bind_eq_ok {x : Parser α} {f : α → Parser β} {input rest : List Token} {b : β} :
    (x >>= f) input = .ok b rest ↔ ∃ a middle, x input = .ok a middle ∧ f a middle = .ok b rest := by
  simp only [bind, EStateM.bind]
  cases x input with
  | ok a middle => simp
  | error e middle => simp

/-- It stops where the first one stops, or where the second one does. -/
theorem bind_eq_error {x : Parser α} {f : α → Parser β} {input rest : List Token} {e : Expected} :
    (x >>= f) input = .error e rest ↔
      x input = .error e rest ∨ ∃ a middle, x input = .ok a middle ∧ f a middle = .error e rest := by
  simp only [bind, EStateM.bind]
  cases x input with
  | ok a middle => simp
  | error e middle => simp

theorem map_eq_ok {x : Parser α} {f : α → β} {input rest : List Token} {b : β} :
    (f <$> x) input = .ok b rest ↔ ∃ a, x input = .ok a rest ∧ f a = b := by
  simp only [Functor.map, EStateM.map]
  cases x input with
  | ok a middle =>
    simp only [EStateM.Result.ok.injEq]
    constructor
    · rintro ⟨same, rfl⟩
      exact ⟨a, ⟨rfl, rfl⟩, same⟩
    · rintro ⟨a', ⟨rfl, rfl⟩, same⟩
      exact ⟨same, rfl⟩
  | error e middle => simp

theorem map_eq_error {x : Parser α} {f : α → β} {input rest : List Token} {e : Expected} :
    (f <$> x) input = .error e rest ↔ x input = .error e rest := by
  simp only [Functor.map, EStateM.map]
  cases x input with
  | ok a middle => simp
  | error e middle => simp

theorem seq_eq_ok {f : Parser (α → β)} {x : Parser α} {input rest : List Token} {b : β} :
    (f <*> x) input = .ok b rest ↔
      ∃ g middle a, f input = .ok g middle ∧ x middle = .ok a rest ∧ g a = b := by
  have unfolded : f <*> x = f >>= fun g => g <$> x := rfl
  simp only [unfolded, bind_eq_ok, map_eq_ok]
  constructor
  · rintro ⟨g, middle, readFirst, a, readSecond, same⟩
    exact ⟨g, middle, a, readFirst, readSecond, same⟩
  · rintro ⟨g, middle, a, readFirst, readSecond, same⟩
    exact ⟨g, middle, readFirst, a, readSecond, same⟩

theorem pure_eq_ok {a b : α} {input rest : List Token} :
    (pure a : Parser α) input = .ok b rest ↔ a = b ∧ input = rest := by
  simp [pure, EStateM.pure]

theorem throw_eq_ok {e : Expected} {input rest : List Token} {b : α} :
    ¬ (throw e : Parser α) input = .ok b rest := by
  intro same
  cases same

theorem peek_bind (f : Option TokenKind → Parser β) (input : List Token) :
    (peek >>= f) input = f (input.head?.map Token.kind) input := rfl

/-- One token is read if it is there and accepted. -/
theorem one_eq_ok {expected : Expected} {accept : Token → Option α} {input rest : List Token}
    {a : α} :
    one expected accept input = .ok a rest ↔ ∃ t, input = t :: rest ∧ accept t = some a := by
  cases input with
  | nil => simp [one]
  | cons t more =>
    simp only [one]
    cases accepted : accept t with
    | none => simp [accepted]
    | some b =>
      constructor
      · intro read
        cases read
        exact ⟨t, rfl, accepted⟩
      · rintro ⟨t', same, accepted'⟩
        cases same
        rw [accepted] at accepted'
        cases accepted'
        rfl

/-- Nothing is read from a token that is not accepted. -/
theorem one_eq_error {expected e : Expected} {accept : Token → Option α} {input rest : List Token} :
    one expected accept input = .error e rest ↔
      expected = e ∧ input = rest ∧ ∀ t ∈ input.head?, accept t = none := by
  cases input with
  | nil => simp [one]
  | cons t more =>
    simp only [one]
    cases accepted : accept t with
    | none => simp [accepted]
    | some b => simp [accepted]

/-- A token of a fixed kind is read if it is the next one. -/
theorem expect_eq_ok {kind : TokenKind} {input rest : List Token} {t : Token} :
    expect kind input = .ok t rest ↔ input = t :: rest ∧ t.kind = kind := by
  rw [expect, one_eq_ok]
  constructor
  · rintro ⟨t', rfl, accepted⟩
    split at accepted
    · cases accepted
      exact ⟨rfl, ‹_›⟩
    · cases accepted
  · rintro ⟨rfl, same⟩
    exact ⟨t, rfl, by simp [same]⟩

theorem expectSign_eq_ok {sign : Punctuation} {input rest : List Token} {t : Token} :
    expectSign sign input = .ok t rest ↔ input = t :: rest ∧ t.IsSign sign :=
  expect_eq_ok

theorem expectWord_eq_ok {word : Keyword} {input rest : List Token} {t : Token} :
    expectWord word input = .ok t rest ↔ input = t :: rest ∧ t.IsWord word :=
  expect_eq_ok

theorem variableName_eq_ok {input rest : List Token} {name : Name} :
    variableName input = .ok name rest ↔
      ∃ t, input = t :: rest ∧ t.kind = .varName ∧ name = .ofToken t := by
  simp only [variableName, map_eq_ok, expect_eq_ok]
  constructor
  · rintro ⟨t, ⟨rfl, kind⟩, rfl⟩
    exact ⟨t, rfl, kind, rfl⟩
  · rintro ⟨t, rfl, kind, rfl⟩
    exact ⟨t, ⟨rfl, kind⟩, rfl⟩

theorem functionName_eq_ok {input rest : List Token} {name : Name} :
    functionName input = .ok name rest ↔
      ∃ t, input = t :: rest ∧ t.kind = .funName ∧ name = .ofToken t := by
  simp only [functionName, map_eq_ok, expect_eq_ok]
  constructor
  · rintro ⟨t, ⟨rfl, kind⟩, rfl⟩
    exact ⟨t, rfl, kind, rfl⟩
  · rintro ⟨t, rfl, kind, rfl⟩
    exact ⟨t, ⟨rfl, kind⟩, rfl⟩

/-! ## Soundness -/

/-- What the parser reads off the front of its input spells what it returns. -/
def Sound (parser : Parser α) (spelt : α → List Token → Prop) : Prop :=
  ∀ ⦃input a rest⦄, parser input = .ok a rest → ∃ front, input = front ++ rest ∧ spelt a front

/-- A sound parser stays sound if its results are made into something that the same tokens spell. -/
theorem Sound.map {parser : Parser α} {spelt : α → List Token → Prop} (sound : Sound parser spelt)
    {f : α → β} {spelt' : β → List Token → Prop} (build : ∀ a ts, spelt a ts → spelt' (f a) ts) :
    Sound (f <$> parser) spelt' := by
  intro input b rest read
  rcases map_eq_ok.1 read with ⟨a, readFirst, rfl⟩
  rcases sound readFirst with ⟨front, rfl, spells⟩
  exact ⟨front, rfl, build a front spells⟩

/-- Only names and literals are read as atoms. -/
theorem atom_sound : Sound atom Atom.SpeltBy := by
  intro input a rest read
  rcases one_eq_ok.1 read with ⟨t, rfl, accepted⟩
  refine ⟨[t], rfl, ?_⟩
  unfold atomOfToken? at accepted
  split at accepted
  · cases accepted
    exact .variable ‹_›
  · cases accepted
    exact .number ‹_›
  · cases accepted
    exact .text ‹_›
  · cases accepted

/-- An operand is an atom or what the parser for operations reads. -/
theorem operand_sound {operation : Parser Expr} (sound : Sound operation Expr.SpeltBy) :
    Sound (operand operation) Expr.SpeltBy := by
  have atomSound : Sound (Expr.atom <$> atom) Expr.SpeltBy :=
    atom_sound.map fun _ _ spelt => .atom spelt
  intro input e rest read
  rw [operand, peek_bind] at read
  cases next : input.head?.map Token.kind with
  | none => exact atomSound (by simpa only [next] using read)
  | some kind =>
    cases kind with
    | operator op => exact sound (by simpa only [next] using read)
    | _ => exact atomSound (by simpa only [next] using read)

/-- What is read where an operation is expected is an operation. -/
theorem operation_sound (bound : Nat) :
    Sound (operation bound) fun e ts => e.IsOperation ∧ e.SpeltBy ts := by
  induction bound with
  | zero =>
    intro input e rest read
    exact absurd read throw_eq_ok
  | succ bound ih =>
    intro input e rest read
    -- the operands are operations under the smaller bound, where the induction hypothesis speaks
    have operandSound : Sound (operand (operation bound)) Expr.SpeltBy := by
      refine operand_sound fun input e rest read => ?_
      rcases ih read with ⟨front, whole, _, spelt⟩
      exact ⟨front, whole, spelt⟩
    simp only [operation, bind_eq_ok] at read
    rcases read with ⟨⟨op, t⟩, afterOp, readOp, l, afterParen, readParen, left, afterLeft, readLeft,
      read⟩
    rcases one_eq_ok.1 readOp with ⟨t', rfl, accepted⟩
    rcases expectSign_eq_ok.1 readParen with ⟨rfl, isParen⟩
    rcases operandSound readLeft with ⟨ts, rfl, speltLeft⟩
    have opKind : t' = t ∧ t.kind = .operator op := by
      rcases Option.map_eq_some_iff.1 accepted with ⟨op', found, same⟩
      cases same
      refine ⟨rfl, ?_⟩
      unfold TokenKind.operator? at found
      split at found
      · rename_i isOperator
        rw [isOperator, Option.some.inj found]
      · cases found
    rcases opKind with ⟨rfl, kind⟩
    -- the operator alone decides whether a second operand is read
    cases op with
    | unary op =>
      simp only [bind_eq_ok, pure_eq_ok] at read
      rcases read with ⟨r, _, readClosing, rfl, rfl⟩
      rcases expectSign_eq_ok.1 readClosing with ⟨rfl, isClosing⟩
      exact ⟨t' :: l :: (ts ++ [r]), by simp, trivial, .unary kind isParen speltLeft isClosing⟩
    | binary op =>
      simp only [bind_eq_ok, pure_eq_ok] at read
      rcases read with ⟨c, _, readComma, right, _, readRight, r, _, readClosing, rfl, rfl⟩
      rcases expectSign_eq_ok.1 readComma with ⟨rfl, isComma⟩
      rcases operandSound readRight with ⟨ts', rfl, speltRight⟩
      rcases expectSign_eq_ok.1 readClosing with ⟨rfl, isClosing⟩
      exact ⟨t' :: l :: (ts ++ c :: (ts' ++ [r])), by simp, trivial,
        .binary kind isParen speltLeft isComma speltRight isClosing⟩

/-- A call is spelt by a name, three atoms and the signs around them. -/
theorem call_sound : Sound call Call.SpeltBy := by
  intro input c rest read
  simp only [call, bind_eq_ok, pure_eq_ok] at read
  rcases read with ⟨callee, _, readCallee, l, _, readParen, first, _, readFirst, c, _, readComma,
    second, _, readSecond, d, _, readComma', third, _, readThird, r, _, readClosing, rfl, rfl⟩
  rcases functionName_eq_ok.1 readCallee with ⟨t, rfl, kind, rfl⟩
  rcases expectSign_eq_ok.1 readParen with ⟨rfl, isParen⟩
  rcases atom_sound readFirst with ⟨ts, rfl, speltFirst⟩
  rcases expectSign_eq_ok.1 readComma with ⟨rfl, isComma⟩
  rcases atom_sound readSecond with ⟨ts', rfl, speltSecond⟩
  rcases expectSign_eq_ok.1 readComma' with ⟨rfl, isComma'⟩
  rcases atom_sound readThird with ⟨ts'', rfl, speltThird⟩
  rcases expectSign_eq_ok.1 readClosing with ⟨rfl, isClosing⟩
  exact ⟨t :: l :: (ts ++ c :: (ts' ++ d :: (ts'' ++ [r]))), by simp,
    .intro kind isParen speltFirst isComma speltSecond isComma' speltThird isClosing⟩

/-- What the next token announces is what is read. -/
theorem term_sound (bound : Nat) : Sound (term bound) Term.SpeltBy := by
  have atomSound : Sound (Term.expr <$> Expr.atom <$> atom) Term.SpeltBy :=
    (atom_sound.map fun _ _ spelt => Expr.SpeltBy.atom spelt).map fun _ _ spelt => .expr spelt
  have callSound : Sound (Term.call <$> call) Term.SpeltBy :=
    call_sound.map fun _ _ spelt => .call spelt
  have operationSound : Sound (Term.expr <$> operation bound) Term.SpeltBy :=
    (operation_sound bound).map fun _ _ spelt => .expr spelt.2
  intro input e rest read
  rw [term, peek_bind] at read
  cases next : input.head?.map Token.kind with
  | none => exact absurd (by simpa only [next] using read) throw_eq_ok
  | some kind =>
    cases kind with
    | varName => exact atomSound (by simpa only [next] using read)
    | numLit => exact atomSound (by simpa only [next] using read)
    | textLit => exact atomSound (by simpa only [next] using read)
    | funName => exact callSound (by simpa only [next] using read)
    | operator op => exact operationSound (by simpa only [next] using read)
    | _ => exact absurd (by simpa only [next] using read) throw_eq_ok

/-! ## Commands -/

/-- The target is read before; it belongs to what spells the assignment. -/
theorem assignment_sound (bound : Nat) {t : Token} (kind : t.kind = .varName) :
    Sound (assignment bound (.ofToken t)) fun command ts => command.SpeltBy (t :: ts) := by
  intro input command rest read
  rw [assignment, peek_bind] at read
  cases next : input.head?.map Token.kind with
  | none => exact absurd (by simpa only [next] using read) throw_eq_ok
  | some nextKind =>
    cases nextKind with
    | punctuation sign =>
      cases sign with
      | less =>
        simp only [next, bind_eq_ok, pure_eq_ok] at read
        rcases read with ⟨less, _, readLess, keyword, _, readKeyword, rfl, rfl⟩
        rcases expectSign_eq_ok.1 readLess with ⟨rfl, isLess⟩
        rcases expectWord_eq_ok.1 readKeyword with ⟨rfl, isKeyword⟩
        exact ⟨[less, keyword], rfl, .read kind isLess isKeyword⟩
      | assign =>
        simp only [next, bind_eq_ok, pure_eq_ok] at read
        rcases read with ⟨equals, _, readEquals, value, _, readValue, rfl, rfl⟩
        rcases expectSign_eq_ok.1 readEquals with ⟨rfl, isEquals⟩
        rcases term_sound bound readValue with ⟨ts, rfl, spelt⟩
        exact ⟨equals :: ts, rfl, .assign kind isEquals spelt⟩
      | _ => exact absurd (by simpa only [next] using read) throw_eq_ok
    | _ => exact absurd (by simpa only [next] using read) throw_eq_ok

/-- Each word in front of a command leads to the rule for that command. -/
theorem simpleCommand_sound (bound : Nat) : Sound (simpleCommand bound) SimpleCommand.SpeltBy := by
  have callSound : Sound (SimpleCommand.call <$> call) SimpleCommand.SpeltBy :=
    call_sound.map fun _ _ spelt => .call spelt
  intro input command rest read
  rw [simpleCommand, peek_bind] at read
  cases next : input.head?.map Token.kind with
  | none => exact absurd (by simpa only [next] using read) throw_eq_ok
  | some kind =>
    cases kind with
    | keyword word =>
      cases word with
      | skipWord =>
        simp only [next, map_eq_ok] at read
        rcases read with ⟨t, readWord, rfl⟩
        rcases expectWord_eq_ok.1 readWord with ⟨rfl, isWord⟩
        exact ⟨[t], rfl, .skip isWord⟩
      | haltWord =>
        simp only [next, map_eq_ok] at read
        rcases read with ⟨t, readWord, rfl⟩
        rcases expectWord_eq_ok.1 readWord with ⟨rfl, isWord⟩
        exact ⟨[t], rfl, .halt isWord⟩
      | printWord =>
        simp only [next, seq_eq_ok, map_eq_ok] at read
        rcases read with ⟨_, _, value, ⟨t, readWord, rfl⟩, readValue, rfl⟩
        rcases expectWord_eq_ok.1 readWord with ⟨rfl, isWord⟩
        rcases atom_sound readValue with ⟨ts, rfl, spelt⟩
        exact ⟨t :: ts, rfl, .print isWord spelt⟩
      | returnWord =>
        simp only [next, seq_eq_ok, map_eq_ok] at read
        rcases read with ⟨_, _, value, ⟨t, readWord, rfl⟩, readValue, rfl⟩
        rcases expectWord_eq_ok.1 readWord with ⟨rfl, isWord⟩
        rcases atom_sound readValue with ⟨ts, rfl, spelt⟩
        exact ⟨t :: ts, rfl, .giveBack isWord spelt⟩
      | _ => exact absurd (by simpa only [next] using read) throw_eq_ok
    | varName =>
      simp only [next, bind_eq_ok] at read
      rcases read with ⟨target, _, readTarget, readRest⟩
      rcases variableName_eq_ok.1 readTarget with ⟨t, rfl, kind, rfl⟩
      rcases assignment_sound bound kind readRest with ⟨ts, rfl, spelt⟩
      exact ⟨t :: ts, rfl, spelt⟩
    | funName => exact callSound (by simpa only [next] using read)
    | _ => exact absurd (by simpa only [next] using read) throw_eq_ok

theorem eq_of_noCommands {expected : Expected} {input rest : List Token} {cs : Commands}
    (read : noCommands expected input = .ok cs rest) : cs = .nil ∧ input = rest := by
  rw [noCommands, peek_bind] at read
  split at read
  · rcases pure_eq_ok.1 read with ⟨rfl, rfl⟩
    exact ⟨rfl, rfl⟩
  · exact absurd read throw_eq_ok

/-- Behind a command come a separator and further commands. -/
theorem moreCommands_sound {commands : Parser Commands} (sound : Sound commands Commands.SpeltBy) :
    Sound (moreCommands commands) fun cs ts =>
      ∃ separator behind, ts = separator ++ behind ∧ Separates separator behind ∧
        cs.SpeltBy behind := by
  intro input cs rest read
  simp only [moreCommands, bind_eq_ok] at read
  rcases read with ⟨present, middle, readSign, readMore⟩
  rw [skipSign, peek_bind] at readSign
  -- without a semicolon no command may follow, and then nothing is read
  split at readSign
  · simp only [bind_eq_ok, pure_eq_ok] at readSign
    rcases readSign with ⟨t, _, readSemicolon, rfl, rfl⟩
    rcases expectSign_eq_ok.1 readSemicolon with ⟨rfl, isSemicolon⟩
    rcases sound (by simpa using readMore) with ⟨behind, rfl, spelt⟩
    exact ⟨t :: behind, rfl, [t], behind, rfl, .inr ⟨t, isSemicolon, rfl⟩, spelt⟩
  · rcases pure_eq_ok.1 readSign with ⟨rfl, rfl⟩
    rcases eq_of_noCommands (by simpa using readMore) with ⟨rfl, rfl⟩
    exact ⟨[], rfl, [], [], rfl, .inl ⟨rfl, rfl⟩, .nil⟩

/-- A block is spelt by its words around its commands. -/
theorem block_sound {commands : Parser Commands} (sound : Sound commands Commands.SpeltBy) :
    Sound (block commands) Block.SpeltBy := by
  intro input b rest read
  simp only [block, bind_eq_ok, pure_eq_ok] at read
  rcases read with ⟨opening, _, readOpening, cs, _, readCommands, closing, _, readClosing, rfl, rfl⟩
  rcases expectWord_eq_ok.1 readOpening with ⟨rfl, isOpening⟩
  rcases sound readCommands with ⟨ts, rfl, spelt⟩
  rcases expectWord_eq_ok.1 readClosing with ⟨rfl, isClosing⟩
  exact ⟨opening :: (ts ++ [closing]), by simp, .intro isOpening spelt isClosing⟩

/-- A command without blocks and what follows it. -/
theorem simpleAndMore_sound {bound : Nat} {commands : Parser Commands}
    (sound : Sound commands Commands.SpeltBy) :
    Sound (do
      let command ← simpleCommand bound
      let rest ← moreCommands commands
      return Commands.simple command .unknown rest) Commands.SpeltBy := by
  intro input cs rest read
  simp only [bind_eq_ok, pure_eq_ok] at read
  rcases read with ⟨command, _, readCommand, more, _, readMore, rfl, rfl⟩
  rcases simpleCommand_sound bound readCommand with ⟨ts, rfl, spelt⟩
  rcases moreCommands_sound sound readMore with
    ⟨_, rfl, separator, behind, rfl, separates, speltMore⟩
  exact ⟨ts ++ (separator ++ behind), by simp, .simple spelt separates speltMore⟩

/-- A branch with its blocks and what follows it. -/
theorem branchAndMore_sound {bound : Nat} {commands : Parser Commands}
    (sound : Sound commands Commands.SpeltBy) :
    Sound (do
      let keyword ← expectWord .ifWord
      let condition ← operation bound
      let _ ← expectWord .thenWord
      let body ← block commands
      if (← peek) = some (.keyword .elseWord) then
        let _ ← expectWord .elseWord
        let elseBody ← block commands
        let rest ← moreCommands commands
        return Commands.ifThenElse keyword condition body.brackets body.commands elseBody.brackets
          elseBody.commands .unknown rest
      else
        let rest ← moreCommands commands
        return .ifThen keyword condition body.brackets body.commands .unknown rest)
      Commands.SpeltBy := by
  intro input cs rest read
  simp only [bind_eq_ok] at read
  rcases read with ⟨keyword, _, readKeyword, condition, _, readCondition, thenWord, _, readThen,
    body, afterBody, readBody, next, _, peeked, read⟩
  -- peeking reads nothing
  cases peeked
  rcases expectWord_eq_ok.1 readKeyword with ⟨rfl, isKeyword⟩
  rcases operation_sound bound readCondition with ⟨ts, rfl, isOperation, speltCondition⟩
  rcases expectWord_eq_ok.1 readThen with ⟨rfl, isThen⟩
  rcases block_sound sound readBody with ⟨bodyTokens, rfl, ⟨isOpening, speltBody, isClosing⟩⟩
  -- whether there is a second block is decided by the token behind the first one
  split at read
  · simp only [bind_eq_ok, pure_eq_ok] at read
    rcases read with ⟨elseWord, _, readElse, elseBody, _, readElseBody, more, _, readMore, rfl, rfl⟩
    rcases expectWord_eq_ok.1 readElse with ⟨rfl, isElse⟩
    rcases block_sound sound readElseBody with
      ⟨elseTokens, rfl, ⟨isElseOpening, speltElse, isElseClosing⟩⟩
    rcases moreCommands_sound sound readMore with
      ⟨_, rfl, separator, behind, rfl, separates, speltMore⟩
    exact ⟨_, by simp, .ifThenElse isKeyword isOperation speltCondition isThen isOpening speltBody
      isClosing isElse isElseOpening speltElse isElseClosing separates speltMore⟩
  · simp only [bind_eq_ok, pure_eq_ok] at read
    rcases read with ⟨more, _, readMore, rfl, rfl⟩
    rcases moreCommands_sound sound readMore with
      ⟨_, rfl, separator, behind, rfl, separates, speltMore⟩
    exact ⟨_, by simp, .ifThen isKeyword isOperation speltCondition isThen isOpening speltBody
      isClosing separates speltMore⟩

/-- Commands are spelt with their separators, by induction on the bound. -/
theorem commands_sound (bound : Nat) : Sound (commands bound) Commands.SpeltBy := by
  -- the bound drops at every command, in blocks and behind the separator alike
  induction bound with
  | zero =>
    intro input cs rest read
    exact absurd read throw_eq_ok
  | succ bound ih =>
    intro input cs rest read
    rw [commands, peek_bind] at read
    have noneSound : Sound (noCommands .commandOrEnd) Commands.SpeltBy := by
      intro input cs rest read
      rcases eq_of_noCommands read with ⟨rfl, rfl⟩
      exact ⟨[], rfl, .nil⟩
    have otherSound (kind : TokenKind) : Sound (if startsSimple kind then do
          let command ← simpleCommand bound
          let rest ← moreCommands (commands bound)
          return Commands.simple command .unknown rest
        else noCommands .commandOrEnd) Commands.SpeltBy := by
      split
      · exact simpleAndMore_sound ih
      · exact noneSound
    cases next : input.head?.map Token.kind with
    | none => exact noneSound (by simpa only [next] using read)
    | some kind =>
      cases kind with
      | keyword word =>
        cases word with
        | ifWord => exact branchAndMore_sound ih (by simpa only [next] using read)
        | _ => exact otherSound _ (by simpa only [next] using read)
      | _ => exact otherSound _ (by simpa only [next] using read)

/-! ## Declarations -/

theorem varDecl_sound (expected : Expected) : Sound (varDecl expected) VarDecl.SpeltBy := by
  intro input decl rest read
  simp only [varDecl, bind_eq_ok, pure_eq_ok] at read
  rcases read with ⟨⟨typeToken, type⟩, _, readType, name, _, readName, rfl, rfl⟩
  rcases one_eq_ok.1 readType with ⟨typeToken', rfl, accepted⟩
  rcases Option.map_eq_some_iff.1 accepted with ⟨type', found, same⟩
  cases same
  rcases variableName_eq_ok.1 readName with ⟨t, rfl, kind, rfl⟩
  exact ⟨[typeToken, t], rfl, .intro found kind⟩

/-- Global variables are spelt with commas between them. -/
theorem globals_sound (bound : Nat) : Sound (globals bound) GlobalsSpeltBy := by
  induction bound with
  | zero =>
    intro input decls rest read
    rcases pure_eq_ok.1 read with ⟨rfl, rfl⟩
    exact ⟨[], rfl, .nil⟩
  | succ bound ih =>
    intro input decls rest read
    rw [globals, peek_bind] at read
    split at read
    · simp only [bind_eq_ok] at read
      rcases read with ⟨decl, _, readDecl, present, _, readSign, read⟩
      rcases varDecl_sound _ readDecl with ⟨ts, rfl, spelt⟩
      rw [skipSign, peek_bind] at readSign
      -- a comma asks for further declarations, of which there may be none
      split at readSign
      · simp only [bind_eq_ok, pure_eq_ok] at readSign
        rcases readSign with ⟨c, _, readComma, rfl, rfl⟩
        rcases expectSign_eq_ok.1 readComma with ⟨rfl, isComma⟩
        simp only [if_true, bind_eq_ok, pure_eq_ok] at read
        rcases read with ⟨more, _, readMore, rfl, rfl⟩
        rcases ih readMore with ⟨ts', rfl, speltMore⟩
        exact ⟨ts ++ c :: ts', by simp, .more spelt isComma speltMore⟩
      · rcases pure_eq_ok.1 readSign with ⟨rfl, rfl⟩
        simp only [Bool.false_eq_true, if_false, pure_eq_ok] at read
        rcases read with ⟨rfl, rfl⟩
        exact ⟨ts, rfl, .last spelt⟩
    · rcases pure_eq_ok.1 read with ⟨rfl, rfl⟩
      exact ⟨[], rfl, .nil⟩

/-- The head of a function is spelt by all tokens in front of its inner functions. -/
theorem functionHead_sound (bound : Nat) :
    Sound (functionHead bound) fun head ts =>
      ∀ closing, (head closing).HeadSpeltBy ts ∧ (head closing).closing = closing := by
  intro input head rest read
  simp only [functionHead, bind_eq_ok, pure_eq_ok] at read
  rcases read with ⟨⟨returnToken, type⟩, _, readType, name, _, readName, lparen, _, readParen,
    param, _, readParam, comma, _, readComma, param', _, readParam', comma', _, readComma',
    param'', _, readParam'', rparen, _, readRparen, lbrace, _, readLbrace,
    decl, _, readDecl, localComma, _, readLocalComma, decl', _, readDecl',
    localComma', _, readLocalComma', decl'', _, readDecl'', localComma'', _, readLocalComma'',
    body, _, readBody, rbrace, _, readRbrace, rfl, rfl⟩
  -- from left to right: each fact makes the front of the input explicit for the next one
  rcases one_eq_ok.1 readType with ⟨returnToken', rfl, accepted⟩
  rcases Option.map_eq_some_iff.1 accepted with ⟨type', found, same⟩
  cases same
  rcases functionName_eq_ok.1 readName with ⟨name, rfl, nameKind, rfl⟩
  rcases expectSign_eq_ok.1 readParen with ⟨rfl, isParen⟩
  rcases variableName_eq_ok.1 readParam with ⟨param, rfl, paramKind, rfl⟩
  rcases expectSign_eq_ok.1 readComma with ⟨rfl, isComma⟩
  rcases variableName_eq_ok.1 readParam' with ⟨param', rfl, paramKind', rfl⟩
  rcases expectSign_eq_ok.1 readComma' with ⟨rfl, isComma'⟩
  rcases variableName_eq_ok.1 readParam'' with ⟨param'', rfl, paramKind'', rfl⟩
  rcases expectSign_eq_ok.1 readRparen with ⟨rfl, isRparen⟩
  rcases expectSign_eq_ok.1 readLbrace with ⟨rfl, isLbrace⟩
  rcases varDecl_sound _ readDecl with ⟨ts, rfl, speltDecl⟩
  rcases expectSign_eq_ok.1 readLocalComma with ⟨rfl, isLocalComma⟩
  rcases varDecl_sound _ readDecl' with ⟨ts', rfl, speltDecl'⟩
  rcases expectSign_eq_ok.1 readLocalComma' with ⟨rfl, isLocalComma'⟩
  rcases varDecl_sound _ readDecl'' with ⟨ts'', rfl, speltDecl''⟩
  rcases expectSign_eq_ok.1 readLocalComma'' with ⟨rfl, isLocalComma''⟩
  rcases block_sound (commands_sound bound) readBody with ⟨bodyTokens, rfl, speltBody⟩
  rcases expectSign_eq_ok.1 readRbrace with ⟨rfl, isRbrace⟩
  refine ⟨_, ?_, fun closing => ⟨.intro found nameKind isParen paramKind isComma paramKind'
    isComma' paramKind'' isRparen isLbrace speltDecl isLocalComma speltDecl' isLocalComma'
    speltDecl'' isLocalComma'' speltBody isRbrace, rfl⟩⟩
  simp

/-- Functions are spelt with the functions inside them, by induction on the bound. -/
theorem functions_sound (bound : Nat) : Sound (functions bound) FunctionsSpeltBy := by
  induction bound with
  | zero =>
    intro input forest rest read
    rcases pure_eq_ok.1 read with ⟨rfl, rfl⟩
    exact ⟨[], rfl, .nil⟩
  | succ bound ih =>
    intro input forest rest read
    rw [functions, peek_bind] at read
    split at read
    · simp only [bind_eq_ok, pure_eq_ok] at read
      rcases read with ⟨head, _, readHead, inner, _, readInner, closing, _, readClosing, more, _,
        readMore, rfl, rfl⟩
      rcases functionHead_sound bound readHead with ⟨headTokens, rfl, speltHead⟩
      -- the closing token is read last, so the head was read for any such token
      rcases speltHead closing with ⟨speltHead, closingSame⟩
      rcases ih readInner with ⟨ts, rfl, speltInner⟩
      rcases expectWord_eq_ok.1 readClosing with ⟨rfl, isClosing⟩
      rcases ih readMore with ⟨ts', rfl, speltMore⟩
      refine ⟨headTokens ++ (ts ++ (head closing).closing :: ts'), by simp [closingSame], ?_⟩
      exact .cons speltHead speltInner (by rw [closingSame]; exact isClosing) speltMore
    · rcases pure_eq_ok.1 read with ⟨rfl, rfl⟩
      exact ⟨[], rfl, .nil⟩

/-- A program takes all tokens. -/
theorem spelt_of_program {source : SourceText} {bound : Nat} {input rest : List Token} {p : Program}
    (read : program source bound input = .ok p rest) : p.SpeltBy input := by
  simp only [program, bind_eq_ok, pure_eq_ok] at read
  rcases read with ⟨main, _, readMain, decls, _, readGlobals, b, _, readBlock, forest, _,
    readFunctions, _, _, readEnd, rfl, rfl⟩
  rcases expectWord_eq_ok.1 readMain with ⟨rfl, isMain⟩
  rcases globals_sound bound readGlobals with ⟨ts, rfl, speltGlobals⟩
  rcases block_sound (commands_sound bound) readBlock with ⟨ts', rfl, speltBlock⟩
  rcases functions_sound bound readFunctions with ⟨ts'', rfl, speltFunctions⟩
  unfold endOfInput at readEnd
  split at readEnd
  · cases readEnd
    simpa using Program.SpeltBy.intro isMain speltGlobals speltBlock speltFunctions
  · cases readEnd

end Parser

/-! ## Token lists -/

/-- Leaving out trivia and then cutting at the end mark leaves what the grammar sees. -/
theorem significant_eq_seenTokens (tokens : List Token) :
    significant tokens = seenTokens tokens := by
  induction tokens with
  | nil => rfl
  | cons t rest ih =>
    rw [seenTokens, ← ih]
    by_cases isMark : t.kind = .eof
    · rw [if_pos isMark, significant, List.filter_cons_of_pos (by simp [isMark]),
        List.takeWhile_cons_of_neg (by simp [isMark])]
    · rw [if_neg isMark]
      by_cases isTrivia : t.kind = .trivia
      · rw [if_pos isTrivia, significant, List.filter_cons_of_neg (by simp [isTrivia]), significant]
      · rw [if_neg isTrivia, significant, List.filter_cons_of_pos (by simp [isTrivia]),
          List.takeWhile_cons_of_pos (by simp [isMark]), significant]

/-- If the tokens have an end mark, it closes them. -/
theorem closingMark_of_find? {tokens : List Token} {mark : Token}
    (found : tokens.find? (fun t => t.kind = .eof) = some mark) (last : Option Token) :
    closingMark last tokens = mark := by
  induction tokens generalizing last with
  | nil => cases found
  | cons t rest ih =>
    rw [closingMark]
    by_cases isMark : t.kind = .eof
    · rw [List.find?_cons_of_pos (by simp [isMark])] at found
      rw [if_pos isMark, Option.some.inj found]
    · rw [List.find?_cons_of_neg (by simp [isMark])] at found
      rw [if_neg isMark, ih found]

/-- Without a mark in the list, the mark stands behind the last token. -/
theorem closingMark_of_unmarked {tokens : List Token} (unmarked : ∀ t ∈ tokens, t.kind ≠ .eof)
    (last : Option Token) : closingMark last tokens = closingMark (tokens.getLast?.or last) [] := by
  induction tokens generalizing last with
  | nil => rfl
  | cons t rest ih =>
    rcases List.forall_mem_cons.1 unmarked with ⟨here, later⟩
    rw [closingMark, if_neg here, ih later, List.getLast?_cons]
    cases rest.getLast? with
    | none => rfl
    | some behind => rfl

/-- The mark that the parser looks for is the one that closes the tokens. -/
theorem endMark_eq_closingMark (tokens : List Token) :
    endMark tokens = closingMark none tokens := by
  unfold endMark
  split
  · next mark found => exact (closingMark_of_find? found none).symm
  · next missing =>
    rw [closingMark_of_unmarked (by simpa using List.find?_eq_none.1 missing), Option.or_none]
    split
    · next last found => rw [found, closingMark]
    · next found => rw [found, closingMark]

/-! ## Programs -/

/-- A parsed program is spelt by the significant tokens of its token list. -/
theorem spelt_of_parse {tokens : List Token} {p : Program} (parsed : parse tokens = .ok p) :
    p.SpeltBy (significant tokens) := by
  simp only [parse] at parsed
  split at parsed
  · cases parsed
    exact Parser.spelt_of_program ‹_›
  · cases parsed

end SplBasic
