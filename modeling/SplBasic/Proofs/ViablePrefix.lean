import SplBasic.Proofs.ParserSoundness
import SplBasic.Proofs.Productions

/-!
# What has been read can be continued

`Parser.Within parser words` : what the parser reads off the front of its input is a word of its
language, and where it fails, what it has read up to there is the beginning of such a word. Every
nonterminal lies within its grammar symbol, so for whole programs:

* `mem_language_of_program` : the kinds of the tokens of a program are a sentence,
* `viable_of_program` : the tokens in front of the place where a parser of programs stops begin a
  sentence.
-/

namespace SplBasic

open ContextFreeGrammar

/-! ## Words of productions -/

/-- The words that a production derives. -/
def wordsOf (u : Production) : Language TokenKind :=
  meaning (fun kind => {[kind]}) grammar.sentences u

@[simp] theorem wordsOf_nil : wordsOf [] = 1 := rfl

@[simp] theorem wordsOf_append (u v : Production) : wordsOf (u ++ v) = wordsOf u * wordsOf v :=
  meaning_append u v

theorem wordsOf_token (kind : TokenKind) : wordsOf (.token kind) = {[kind]} :=
  meaning_terminal kind

theorem wordsOf_part (s : GrammarSymbol) : wordsOf (.part s) = grammar.sentences s :=
  meaning_nonterminal s

theorem mem_wordsOf_token (kind : TokenKind) : [kind] ∈ wordsOf (.token kind) := by
  rw [wordsOf_token]
  exact rfl

/-- A production only adds words to those of its symbol. -/
theorem wordsOf_le {s : GrammarSymbol} {u : Production} (isProduction : u ∈ productions s) :
    wordsOf u ≤ wordsOf (.part s) := by
  have isRule : ContextFreeRule.mk s u ∈ grammar.rules := mem_rules_iff.2 isProduction
  rw [wordsOf_part]
  exact meaning_le_sentences isRule

/-- The words of the alternative at an index in the list of productions. -/
theorem alternative_le (s : GrammarSymbol) (i : Nat) {u : Production}
    (isProduction : (productions s)[i]? = some u) : wordsOf u ≤ wordsOf (.part s) :=
  wordsOf_le (List.mem_of_getElem? isProduction)

/-- A symbol with an empty production stands for the empty word. -/
theorem nil_mem_wordsOf {s : GrammarSymbol} (isProduction : [] ∈ productions s) :
    [] ∈ wordsOf (.part s) :=
  wordsOf_le isProduction Language.nil_mem_one

/-- What may follow the words of one language in the words of another one. -/
def residual (words whole : Language TokenKind) : Language TokenKind :=
  {w | ∀ v ∈ words, v ++ w ∈ whole}

/-- The residual is the largest language that may follow. -/
theorem le_residual_iff {words whole behind : Language TokenKind} :
    behind ≤ residual words whole ↔ words * behind ≤ whole := by
  constructor
  · rintro below _ ⟨v, inWords, w, inBehind, rfl⟩
    exact below inBehind v inWords
  · intro below w inBehind v inWords
    exact below (Language.append_mem_mul inWords inBehind)

/-- What may follow, set behind the words, gives words of the whole. -/
theorem mul_residual_le (words whole : Language TokenKind) : words * residual words whole ≤ whole :=
  le_residual_iff.1 le_rfl

namespace Parser

variable {α β : Type}

/-! ## Parsers within a language -/

/-- The parser reads words of a language, which may depend on the result, and stops only behind what
begins such a word. -/
structure Within (parser : Parser α) (words : α → Language TokenKind) : Prop where
  accepts : ∀ ⦃input a rest⦄, parser input = .ok a rest →
    ∃ front, input = front ++ rest ∧ front.map Token.kind ∈ words a
  viable : ∀ ⦃input e rest⦄, parser input = .error e rest →
    ∃ front, input = front ++ rest ∧ ∃ more a, front.map Token.kind ++ more ∈ words a
  inhabited : ∃ w a, w ∈ words a

namespace Within

/-- A parser within a language is within any larger one. -/
theorem mono {parser : Parser α} {words words' : α → Language TokenKind}
    (within : Within parser words) (le : ∀ a, words a ≤ words' a) : Within parser words' where
  accepts := by
    intro input a rest read
    rcases within.accepts read with ⟨front, whole, member⟩
    exact ⟨front, whole, le a member⟩
  viable := by
    intro input e rest stopped
    rcases within.viable stopped with ⟨front, whole, more, a, member⟩
    exact ⟨front, whole, more, a, le a member⟩
  inhabited := by
    rcases within.inhabited with ⟨w, a, member⟩
    exact ⟨w, a, le a member⟩

/-- One parser behind the other reads words of the one behind words of the other. -/
theorem bind {parser : Parser α} {next : α → Parser β} {words : α → Language TokenKind}
    {nextWords : α → β → Language TokenKind} {all : β → Language TokenKind}
    (first : Within parser words) (second : ∀ a, Within (next a) (nextWords a))
    (le : ∀ a b, words a * nextWords a b ≤ all b) : Within (parser >>= next) all where
  accepts := by
    intro input b rest read
    rcases bind_eq_ok.1 read with ⟨a, middle, readFirst, readSecond⟩
    rcases first.accepts readFirst with ⟨front, rfl, member⟩
    rcases (second a).accepts readSecond with ⟨front', rfl, member'⟩
    refine ⟨front ++ front', by simp, le a b ?_⟩
    rw [List.map_append]
    exact Language.append_mem_mul member member'
  viable := by
    intro input e rest stopped
    rcases bind_eq_error.1 stopped with stoppedFirst | ⟨a, middle, readFirst, stoppedSecond⟩
    · -- the first parser stops: complete its word, then take any word of the second one
      rcases first.viable stoppedFirst with ⟨front, whole, more, a, member⟩
      rcases (second a).inhabited with ⟨w, b, member'⟩
      refine ⟨front, whole, more ++ w, b, le a b ?_⟩
      rw [← List.append_assoc]
      exact Language.append_mem_mul member member'
    · -- the second parser stops: its word is completed behind the whole word of the first one
      rcases first.accepts readFirst with ⟨front, rfl, member⟩
      rcases (second a).viable stoppedSecond with ⟨front', rfl, more, b, member'⟩
      refine ⟨front ++ front', by simp, more, b, le a b ?_⟩
      rw [List.map_append, List.append_assoc]
      exact Language.append_mem_mul member member'
  inhabited := by
    rcases first.inhabited with ⟨w, a, member⟩
    rcases (second a).inhabited with ⟨w', b, member'⟩
    exact ⟨w ++ w', b, le a b (Language.append_mem_mul member member')⟩

/-- The same for languages that do not depend on results. -/
theorem seq {parser : Parser α} {next : α → Parser β} {words words' : Language TokenKind}
    (first : Within parser fun _ => words) (second : ∀ a, Within (next a) fun _ => words') :
    Within (parser >>= next) fun _ => words * words' :=
  first.bind second fun _ _ => le_rfl

/-- Changing the result changes nothing about what is read. -/
theorem map {parser : Parser α} {words : Language TokenKind} (within : Within parser fun _ => words)
    (f : α → β) : Within (f <$> parser) fun _ => words where
  accepts := by
    intro input b rest read
    rcases map_eq_ok.1 read with ⟨a, readFirst, rfl⟩
    exact within.accepts readFirst
  viable := by
    intro input e rest stopped
    rcases within.viable (map_eq_error.1 stopped) with ⟨front, whole, more, a, member⟩
    exact ⟨front, whole, more, f a, member⟩
  inhabited := by
    rcases within.inhabited with ⟨w, a, member⟩
    exact ⟨w, f a, member⟩

/-- Looking at the next token reads nothing, so each case is judged on its own. -/
theorem peek {next : Option TokenKind → Parser β} {words : β → Language TokenKind}
    (within : ∀ kind, Within (next kind) words) : Within (Parser.peek >>= next) words where
  accepts := fun _ _ _ read => (within _).accepts read
  viable := fun _ _ _ stopped => (within _).viable stopped
  inhabited := (within none).inhabited

/-- A parser that reads nothing is within a language with the empty word. -/
protected theorem pure {a : α} {words : α → Language TokenKind} (empty : [] ∈ words a) :
    Within (pure a) words where
  accepts := by
    intro input b rest read
    rcases pure_eq_ok.1 read with ⟨rfl, rfl⟩
    exact ⟨[], rfl, empty⟩
  viable := by
    intro input e rest stopped
    cases stopped
  inhabited := ⟨[], a, empty⟩

/-- Nothing is read before a failure, and nothing begins every word. -/
theorem throw {e : Expected} {words : α → Language TokenKind} (inhabited : ∃ w a, w ∈ words a) :
    Within (MonadExcept.throw e : Parser α) words where
  accepts := fun _ _ _ read => absurd read throw_eq_ok
  viable := by
    intro input e' rest stopped
    rcases inhabited with ⟨w, a, member⟩
    cases stopped
    exact ⟨[], rfl, w, a, member⟩
  inhabited := inhabited

/-- A parser for one token reads a word of one kind, or stops in front of a word that it could read.
-/
theorem one {expected : Expected} {accept : Token → Option α} {words : α → Language TokenKind}
    (accepted : ∀ t a, accept t = some a → [t.kind] ∈ words a) (inhabited : ∃ w a, w ∈ words a) :
    Within (Parser.one expected accept) words where
  accepts := by
    intro input a rest read
    rcases one_eq_ok.1 read with ⟨t, rfl, found⟩
    exact ⟨[t], rfl, accepted t a found⟩
  viable := by
    intro input e rest stopped
    rcases inhabited with ⟨w, a, member⟩
    exact ⟨[], (one_eq_error.1 stopped).2.1, w, a, member⟩
  inhabited := inhabited

end Within

/-! ## Expressions -/

/-- A token of a fixed kind. -/
theorem expect_within (kind : TokenKind) : Within (expect kind) fun _ => wordsOf (.token kind) := by
  refine Within.one ?_ ⟨[kind], ⟨kind, "", .start, ""⟩, mem_wordsOf_token kind⟩
  intro t a accepted
  split at accepted
  · rename_i same
    exact same ▸ mem_wordsOf_token _
  · cases accepted

theorem word_within (word : Keyword) : Within (expectWord word) fun _ => wordsOf (.word word) :=
  expect_within _

theorem sign_within (sign : Punctuation) : Within (expectSign sign) fun _ => wordsOf (.sign sign) :=
  expect_within _

theorem variableName_within : Within variableName fun _ => wordsOf (.token .varName) :=
  (expect_within _).map _

theorem functionName_within : Within functionName fun _ => wordsOf (.token .funName) :=
  (expect_within _).map _

/-- A parser that is done reads the empty word. -/
theorem done_within (a : α) : Within (pure a) fun _ => wordsOf [] :=
  .pure Language.nil_mem_one

/-- An atom is read wherever variables and constants may stand. -/
theorem variableOrConstant_within {words : Language TokenKind} (isVariable : [.varName] ∈ words)
    (isConstant : wordsOf (.part .constant) ≤ words) : Within atom fun _ => words := by
  refine Within.one ?_ ⟨[.varName], .name (.ofToken ⟨.varName, "", .start, ""⟩), isVariable⟩
  intro t a accepted
  unfold atomOfToken? at accepted
  split at accepted
  · rename_i kind
    exact kind ▸ isVariable
  · rename_i kind
    exact kind ▸ isConstant (alternative_le .constant 0 rfl (mem_wordsOf_token _))
  · rename_i kind
    exact kind ▸ isConstant (alternative_le .constant 1 rfl (mem_wordsOf_token _))
  · cases accepted

/-- A name or a literal. -/
theorem atom_within : Within atom fun _ => wordsOf (.part .atom) :=
  variableOrConstant_within (alternative_le .atom 0 rfl (mem_wordsOf_token _))
    (alternative_le .atom 1 rfl)

/-- An operand is an atom or an operation inside it. -/
theorem operand_within {operation : Parser Expr}
    (within : Within operation fun _ => wordsOf (.part .operation)) :
    Within (operand operation) fun _ => wordsOf (.part .operand) := by
  refine Within.peek fun next => ?_
  split
  · exact within.mono fun _ => alternative_le .operand 1 rfl
  · exact (atom_within.map _).mono fun _ => alternative_le .operand 0 rfl

/-- Each operator heads an operation. -/
theorem operation_le {s : GrammarSymbol} (operations : productions s = Production.operations)
    (op : Operator) :
    wordsOf (.token (.operator op)) * wordsOf (.sign .lparen ++ .operands op ++ .sign .rparen) ≤
      wordsOf (.part s) := by
  have isProduction : Production.token (.operator op) ++ .sign .lparen ++ .operands op
      ++ .sign .rparen ∈ productions s := by
    rw [operations]
    exact List.mem_map.2 ⟨op, Operator.mem_all op, rfl⟩
  have below := wordsOf_le isProduction
  simpa only [wordsOf_append, mul_assoc] using below

/-- An operation has a word, as every operator has one with two literals below it. -/
theorem exists_operation {s : GrammarSymbol} (operations : productions s = Production.operations) :
    ∃ w, w ∈ wordsOf (.part s) := by
  have isOperand : [.varName] ∈ wordsOf (.part .operand) :=
    alternative_le .operand 0 rfl (alternative_le .atom 0 rfl (mem_wordsOf_token _))
  have inBrackets : [.punctuation .lparen] ++ [.varName] ++ [.punctuation .rparen] ∈
      wordsOf (.sign .lparen ++ .operands (.unary .not) ++ .sign .rparen) := by
    simp only [Production.operands, wordsOf_append]
    exact Language.append_mem_mul (Language.append_mem_mul (mem_wordsOf_token _) isOperand)
      (mem_wordsOf_token _)
  exact ⟨_, operation_le operations (.unary .not)
    (Language.append_mem_mul (mem_wordsOf_token _) inBrackets)⟩

/-- The operator decides which word of an operation is read. -/
theorem operator_within :
    Within (one .operation fun token => token.kind.operator?.map (·, token))
      fun a => wordsOf (.token (.operator a.1)) := by
  refine Within.one ?_ ⟨_, (.unary .not, ⟨.eof, "", .start, ""⟩), mem_wordsOf_token _⟩
  intro t a accepted
  rcases Option.map_eq_some_iff.1 accepted with ⟨op, found, rfl⟩
  unfold TokenKind.operator? at found
  split at found
  · rename_i kind
    cases found
    exact kind ▸ mem_wordsOf_token _
  · cases found

/-- Operations stand as operands and as conditions. -/
theorem operation_within (bound : Nat) : ∀ s, productions s = Production.operations →
    Within (operation bound) fun _ => wordsOf (.part s) := by
  induction bound with
  | zero =>
    intro s operations
    rcases exists_operation operations with ⟨w, member⟩
    exact Within.throw ⟨w, .atom (.name (.ofToken ⟨.eof, "", .start, ""⟩)), member⟩
  | succ bound ih =>
    intro s operations
    have operandWithin := operand_within (ih .operation rfl)
    refine operator_within.bind (fun a => ?_) fun a _ => operation_le operations a.1
    rcases a with ⟨op, t⟩
    -- the operator decides how many operands its brackets hold, as in its production
    cases op with
    | unary op =>
      refine ((sign_within .lparen).seq fun _ => operandWithin.seq fun _ =>
        (sign_within .rparen).seq fun _ => done_within _).mono fun _ => ?_
      simp only [Production.operands, wordsOf_append, wordsOf_nil, mul_one, mul_assoc, le_refl]
    | binary op =>
      refine ((sign_within .lparen).seq fun _ => operandWithin.seq fun _ =>
        (sign_within .comma).seq fun _ => operandWithin.seq fun _ =>
        (sign_within .rparen).seq fun _ => done_within _).mono fun _ => ?_
      simp only [Production.operands, wordsOf_append, wordsOf_nil, mul_one, mul_assoc, le_refl]

/-- A call, up to its closing bracket. -/
theorem call_within : Within call fun _ => wordsOf (.part .call) := by
  refine (functionName_within.seq fun _ => (sign_within .lparen).seq fun _ => atom_within.seq fun _ =>
    (sign_within .comma).seq fun _ => atom_within.seq fun _ => (sign_within .comma).seq fun _ =>
    atom_within.seq fun _ => (sign_within .rparen).seq fun _ => done_within _).mono fun _ => ?_
  have below := alternative_le .call 0 rfl
  simpa only [wordsOf_append, wordsOf_nil, mul_one, mul_assoc] using below

/-- A term is an atom, an operation or a call, told apart by the next token. -/
theorem term_within (bound : Nat) : Within (term bound) fun _ => wordsOf (.part .term) := by
  have atomWithin : Within (Term.expr <$> Expr.atom <$> atom) fun _ => wordsOf (.part .term) :=
    ((variableOrConstant_within (alternative_le .term 1 rfl (mem_wordsOf_token _))
      (alternative_le .term 0 rfl)).map _).map _
  have callWithin : Within (Term.call <$> call) fun _ => wordsOf (.part .term) :=
    (call_within.map _).mono fun _ => alternative_le .term 2 rfl
  have operationWithin : Within (Term.expr <$> operation bound) fun _ => wordsOf (.part .term) :=
    ((operation_within bound .operation rfl).map _).mono fun _ =>
      alternative_le .term 3 rfl
  refine Within.peek fun next => ?_
  split
  · exact atomWithin
  · exact atomWithin
  · exact atomWithin
  · exact callWithin
  · exact operationWithin
  · exact .throw atomWithin.inhabited

/-! ## Commands -/

/-- The target of an assignment is read before the assignment is known to be one. -/
theorem assignment_within (bound : Nat) (target : Name) :
    Within (assignment bound target) fun _ =>
      residual (wordsOf (.token .varName)) (wordsOf (.part .assign)) := by
  have readWithin : Within (do
      let _ ← expectSign .less
      return SimpleCommand.read target (← expectWord .inputWord)) fun _ =>
        residual (wordsOf (.token .varName)) (wordsOf (.part .assign)) := by
    refine ((sign_within .less).seq fun _ => (word_within .inputWord).seq fun _ =>
      done_within _).mono fun _ => le_residual_iff.2 ?_
    have below := alternative_le .assign 0 rfl
    simpa only [wordsOf_append, wordsOf_nil, mul_one, mul_assoc] using below
  -- the target is read already, so only what may follow it is read here
  refine Within.peek fun next => ?_
  split
  · exact readWithin
  · refine ((sign_within .assign).seq fun _ => (term_within bound).seq fun _ =>
      done_within _).mono fun _ => le_residual_iff.2 ?_
    have below := alternative_le .assign 1 rfl
    simpa only [wordsOf_append, wordsOf_nil, mul_one, mul_assoc] using below
  · exact .throw readWithin.inhabited

/-- A command that is a word and an atom. -/
theorem wordAndAtom_within {word : Keyword}
    (isProduction : Production.word word ++ .part .atom ∈ productions .command)
    (build : Token → Atom → SimpleCommand) :
    Within (build <$> expectWord word <*> atom) fun _ => wordsOf (.part .command) := by
  have unfolded : build <$> expectWord word <*> atom =
      (build <$> expectWord word) >>= fun g => g <$> atom := rfl
  rw [unfolded]
  refine (((word_within word).map build).seq fun g => atom_within.map g).mono fun _ => ?_
  have below := wordsOf_le isProduction
  rwa [wordsOf_append] at below

/-- A command without blocks, told by its first token. -/
theorem simpleCommand_within (bound : Nat) :
    Within (simpleCommand bound) fun _ => wordsOf (.part .command) := by
  have skipWithin : Within (SimpleCommand.skip <$> expectWord .skipWord) fun _ =>
      wordsOf (.part .command) :=
    ((word_within _).map _).mono fun _ => alternative_le .command 0 rfl
  refine Within.peek fun next => ?_
  split
  · exact skipWithin
  · exact ((word_within _).map _).mono fun _ => alternative_le .command 1 rfl
  · exact wordAndAtom_within (.tail _ (.tail _ (.head _))) _
  · exact wordAndAtom_within (.tail _ (.tail _ (.tail _ (.head _)))) _
  · refine (variableName_within.seq fun target => assignment_within bound target).mono fun _ => ?_
    exact (mul_residual_le _ _).trans (alternative_le .command 4 rfl)
  · exact (call_within.map _).mono fun _ =>
      alternative_le .command 5 rfl
  · exact .throw skipWithin.inhabited

/-- A sign that may be left out. -/
theorem skipSign_within (sign : Punctuation) :
    Within (skipSign sign) fun present => if present then wordsOf (.sign sign) else 1 := by
  have done : Within (pure true) fun present =>
      if present then (1 : Language TokenKind) else 0 :=
    .pure (by exact Language.nil_mem_one)
  refine Within.peek fun next => ?_
  split
  · refine (sign_within sign).bind (fun _ => done) fun _ present => ?_
    cases present with
    | false => simp
    | true => simp
  · exact .pure Language.nil_mem_one

/-- A sign that may be left out, with what follows in either case. -/
theorem optional_within {sign : Punctuation} {next : Bool → Parser β}
    {words words' all : Language TokenKind} (present : Within (next true) fun _ => words)
    (absent : Within (next false) fun _ => words') (le : wordsOf (.sign sign) * words ≤ all)
    (le' : words' ≤ all) : Within (skipSign sign >>= next) fun _ => all := by
  have next_within : ∀ isPresent, Within (next isPresent) fun _ =>
      if isPresent then words else words' := by
    intro isPresent
    cases isPresent with
    | true => exact present
    | false => exact absent
  refine (skipSign_within sign).bind next_within fun isPresent _ => ?_
  cases isPresent with
  | true => exact le
  | false => exact (one_mul words').le.trans le'

/-- Where no command follows, the empty word is read. -/
theorem noCommands_within (expected : Expected) {words : Language TokenKind} (empty : [] ∈ words) :
    Within (noCommands expected) fun _ => words := by
  refine Within.peek fun next => ?_
  split
  · exact .pure empty
  · exact .throw ⟨[], .nil, empty⟩

/-- What may follow a command in its block. -/
def behindCommand : Language TokenKind :=
  residual (wordsOf (.part .command)) (wordsOf (.part .commands))

/-- Behind a command there are more commands behind a semicolon, or none. -/
theorem moreCommands_within {commands : Parser Commands}
    (within : Within commands fun _ => wordsOf (.part .commands)) :
    Within (moreCommands commands) fun _ => behindCommand := by
  have empty : [] ∈ behindCommand := by
    intro w command
    rw [List.append_nil]
    exact alternative_le .commands 1 rfl command
  refine optional_within within (noCommands_within _ empty) (le_residual_iff.2 ?_) le_rfl
  have below := alternative_le .commands 2 rfl
  simpa only [wordsOf_append, mul_assoc] using below

/-- A block is commands between its words. -/
theorem block_within {commands : Parser Commands}
    (within : Within commands fun _ => wordsOf (.part .commands)) :
    Within (block commands) fun _ => wordsOf (.part .block) := by
  refine ((word_within .beginWord).seq fun _ => within.seq fun _ =>
    (word_within .endWord).seq fun _ => done_within _).mono fun _ => ?_
  have below := alternative_le .block 0 rfl
  simpa only [wordsOf_append, wordsOf_nil, mul_one, mul_assoc] using below

/-- A command followed by what may follow it gives commands. -/
theorem command_le {words : Language TokenKind} (le : words ≤ wordsOf (.part .command)) :
    words * behindCommand ≤ wordsOf (.part .commands) :=
  (mul_le_mul' le le_rfl).trans (mul_residual_le _ _)

/-- A branch up to the end of its first block. -/
def branchStart : Language TokenKind :=
  wordsOf (.word .ifWord) * (wordsOf (.part .condition) * (wordsOf (.word .thenWord)
    * wordsOf (.part .block)))

/-- A branch is a command, with an alternative and without. -/
theorem branch_le :
    branchStart ≤ wordsOf (.part .command) ∧
      branchStart * (wordsOf (.word .elseWord) * wordsOf (.part .block)) ≤
        wordsOf (.part .command) := by
  have isCommand : wordsOf (.part .branch) ≤ wordsOf (.part .command) :=
    alternative_le .command 6 rfl
  have plain := (alternative_le .branch 0 rfl).trans isCommand
  have withElse := (alternative_le .branch 1 rfl).trans isCommand
  simp only [wordsOf_append, mul_assoc] at plain withElse
  simp only [branchStart, mul_assoc]
  exact ⟨plain, withElse⟩

/-- Commands, with all blocks inside them: the induction is on the bound of the parser. -/
theorem commands_within (bound : Nat) :
    Within (commands bound) fun _ => wordsOf (.part .commands) := by
  have empty : [] ∈ wordsOf (.part .commands) := nil_mem_wordsOf (.head _)
  induction bound with
  | zero => exact .throw ⟨[], .nil, empty⟩
  | succ bound ih =>
    have more := moreCommands_within ih
    refine Within.peek fun next => ?_
    split
    · -- whether an alternative follows is decided behind the first block
      have tail : ∀ (keyword : Token) (condition : Expr) (body : Block), Within (do
          if (← peek) = some (.keyword .elseWord) then
            let _ ← expectWord .elseWord
            let elseBody ← block (commands bound)
            let rest ← moreCommands (commands bound)
            return Commands.ifThenElse keyword condition body.brackets body.commands
              elseBody.brackets elseBody.commands .unknown rest
          else
            let rest ← moreCommands (commands bound)
            return .ifThen keyword condition body.brackets body.commands .unknown rest)
          fun _ => residual branchStart (wordsOf (.part .commands)) := by
        intro keyword condition body
        refine Within.peek fun next => ?_
        split
        · refine ((word_within .elseWord).seq fun _ => (block_within ih).seq fun _ =>
            more.seq fun _ => done_within _).mono fun _ => le_residual_iff.2 ?_
          have below := command_le branch_le.2
          simpa only [wordsOf_nil, mul_one, mul_assoc] using below
        · refine (more.seq fun _ => done_within _).mono fun _ => le_residual_iff.2 ?_
          rw [wordsOf_nil, mul_one]
          exact command_le branch_le.1
      -- so the parser reads a branch up to its first block, then what is left of commands
      refine ((word_within .ifWord).seq fun _ => (operation_within bound .condition rfl).seq fun _ =>
        (word_within .thenWord).seq fun _ => (block_within ih).seq fun _ => tail _ _ _).mono
        fun _ => ?_
      have below := mul_residual_le branchStart (wordsOf (.part .commands))
      simpa only [branchStart, mul_assoc] using below
    · split
      · refine ((simpleCommand_within bound).seq fun _ => more.seq fun _ =>
          done_within _).mono fun _ => ?_
        rw [wordsOf_nil, mul_one]
        exact mul_residual_le _ _
      · exact noCommands_within _ empty
    · exact noCommands_within _ empty

/-! ## Declarations -/

def typeWords (types : List Production) : Language TokenKind :=
  {w | ∃ type ∈ types, w ∈ wordsOf type}

/-- A type stands in a language if each of its words does. -/
theorem typeWords_mul_le {types : List Production} {behind whole : Language TokenKind}
    (le : ∀ type ∈ types, wordsOf type * behind ≤ whole) : typeWords types * behind ≤ whole := by
  rintro _ ⟨v, ⟨type, isType, inType⟩, w, inBehind, rfl⟩
  exact le type isType (Language.append_mem_mul inType inBehind)

/-- The words for value types are those that the parser accepts as such. -/
theorem mem_typeWords_of_valueType {kind : TokenKind} {type : ValueType}
    (found : ValueType.ofKind? kind = some type) : [kind] ∈ typeWords Production.valueTypes := by
  unfold ValueType.ofKind? at found
  split at found
  · exact ⟨_, .head _, mem_wordsOf_token _⟩
  · exact ⟨_, .tail _ (.head _), mem_wordsOf_token _⟩
  · cases found

/-- A word for a value type. -/
theorem valueType_within (expected : Expected) :
    Within (one expected fun token => (ValueType.ofKind? token.kind).map (token, ·))
      fun _ => typeWords Production.valueTypes := by
  refine Within.one ?_ ⟨[.keyword .numWord], (⟨.eof, "", .start, ""⟩, .num),
    mem_typeWords_of_valueType rfl⟩
  intro t a accepted
  rcases Option.map_eq_some_iff.1 accepted with ⟨type, found, rfl⟩
  exact mem_typeWords_of_valueType found

/-- A word for a return type: a value type or `void`. -/
theorem returnType_within (expected : Expected) :
    Within (one expected fun token => (ReturnType.ofKind? token.kind).map (token, ·))
      fun _ => typeWords Production.returnTypes := by
  have isVoid : [.keyword .voidWord] ∈ typeWords Production.returnTypes :=
    ⟨_, .tail _ (.tail _ (.head _)), mem_wordsOf_token _⟩
  refine Within.one ?_ ⟨_, (⟨.eof, "", .start, ""⟩, .void), isVoid⟩
  intro t a accepted
  rcases Option.map_eq_some_iff.1 accepted with ⟨type, found, rfl⟩
  unfold ReturnType.ofKind? at found
  split at found
  · rename_i kind
    exact kind ▸ isVoid
  · rcases Option.map_eq_some_iff.1 found with ⟨valueType, foundValue, _⟩
    rcases mem_typeWords_of_valueType foundValue with ⟨type, isType, member⟩
    exact ⟨type, List.mem_append_left _ isType, member⟩

/-- A type in front of a variable. -/
def declarations : Language TokenKind :=
  typeWords Production.valueTypes * wordsOf (.token .varName)

/-- A type and a variable. -/
theorem varDecl_within (expected : Expected) : Within (varDecl expected) fun _ => declarations := by
  refine ((valueType_within expected).seq fun _ => variableName_within.seq fun _ =>
    done_within _).mono fun _ => ?_
  rw [wordsOf_nil, mul_one, declarations]

/-- A declaration is the last global, or further ones follow behind a comma. -/
theorem declarations_le :
    declarations ≤ wordsOf (.part .globals) ∧
      declarations * (wordsOf (.sign .comma) * wordsOf (.part .globals)) ≤
        wordsOf (.part .globals) := by
  constructor
  · refine typeWords_mul_le fun type isType => ?_
    have isProduction : type ++ .token .varName ∈ productions .globals :=
      .tail _ (List.mem_flatMap.2 ⟨type, isType, .head _⟩)
    have below := wordsOf_le isProduction
    rwa [wordsOf_append] at below
  · rw [declarations, mul_assoc]
    refine typeWords_mul_le fun type isType => ?_
    have isProduction : type ++ .token .varName ++ .sign .comma ++ .part .globals ∈
        productions .globals :=
      .tail _ (List.mem_flatMap.2 ⟨type, isType, .tail _ (.head _)⟩)
    have below := wordsOf_le isProduction
    simpa only [wordsOf_append, mul_assoc] using below

/-- Declarations with a comma between them, or none. -/
theorem globals_within (bound : Nat) :
    Within (globals bound) fun _ => wordsOf (.part .globals) := by
  have empty : [] ∈ wordsOf (.part .globals) := nil_mem_wordsOf (.head _)
  induction bound with
  | zero => exact .pure empty
  | succ bound ih =>
    refine Within.peek fun next => ?_
    split
    · -- a global is complete behind its name, and a comma asks for more
      have tail : ∀ decl : VarDecl, Within (do
          if ← skipSign .comma then
            return decl :: (← globals bound)
          else return [decl])
          fun _ => residual declarations (wordsOf (.part .globals)) := by
        intro decl
        refine optional_within (ih.seq fun _ => done_within _) (done_within _)
          (le_residual_iff.2 ?_) (le_residual_iff.2 ?_)
        · rw [wordsOf_nil, mul_one]
          exact declarations_le.2
        · rw [wordsOf_nil, mul_one]
          exact declarations_le.1
      exact ((varDecl_within _).seq tail).mono fun _ => mul_residual_le _ _
    · exact .pure empty

/-- A declaration with a comma behind it. -/
def localDeclarations : Language TokenKind :=
  declarations * wordsOf (.sign .comma)

/-- A local declaration is one for each value type, with a comma behind it. -/
theorem localDeclarations_mul_le {behind whole : Language TokenKind}
    (le : ∀ type ∈ Production.valueTypes, wordsOf (.localDecl type) * behind ≤ whole) :
    localDeclarations * behind ≤ whole := by
  simp only [localDeclarations, declarations, mul_assoc]
  refine typeWords_mul_le fun type isType => ?_
  simpa only [Production.localDecl, wordsOf_append, mul_assoc] using le type isType

/-- Three such declarations are the locals of a function. -/
theorem locals_le :
    localDeclarations * (localDeclarations * (localDeclarations * 1)) ≤ wordsOf (.part .locals) := by
  -- the types are chosen one after the other, each behind the declarations before it
  refine localDeclarations_mul_le fun first isFirst => le_residual_iff.1 ?_
  refine localDeclarations_mul_le fun second isSecond => le_residual_iff.1 ?_
  refine localDeclarations_mul_le fun third isThird => ?_
  rw [mul_one, le_residual_iff, le_residual_iff]
  have isProduction : Production.localDecl first ++ .localDecl second ++ .localDecl third ∈
      productions .locals :=
    List.mem_flatMap.2 ⟨first, isFirst, List.mem_flatMap.2 ⟨second, isSecond,
      List.mem_map.2 ⟨third, isThird, rfl⟩⟩⟩
  have below := wordsOf_le isProduction
  simpa only [wordsOf_append, mul_assoc] using below

/-- What a function returns, its name and its parameters make a header. -/
theorem header_le :
    typeWords Production.returnTypes * wordsOf (.token .funName ++ .sign .lparen ++ .token .varName
      ++ .sign .comma ++ .token .varName ++ .sign .comma ++ .token .varName ++ .sign .rparen) ≤
      wordsOf (.part .header) := by
  refine typeWords_mul_le fun type isType => ?_
  have below := wordsOf_le (s := .header) (List.mem_map.2 ⟨type, isType, rfl⟩)
  simpa only [wordsOf_append, mul_assoc] using below

/-- A function up to the functions declared inside it. -/
def functionStart : Production :=
  .part .header ++ .sign .lbrace ++ .part .locals ++ .part .block ++ .sign .rbrace

/-- A function up to its closing brace. -/
theorem functionHead_within (bound : Nat) :
    Within (functionHead bound) fun _ => wordsOf functionStart := by
  refine ((returnType_within _).seq fun _ => functionName_within.seq fun _ =>
    (sign_within .lparen).seq fun _ => variableName_within.seq fun _ =>
    (sign_within .comma).seq fun _ => variableName_within.seq fun _ =>
    (sign_within .comma).seq fun _ => variableName_within.seq fun _ =>
    (sign_within .rparen).seq fun _ => (sign_within .lbrace).seq fun _ =>
    (varDecl_within _).seq fun _ => (sign_within .comma).seq fun _ =>
    (varDecl_within _).seq fun _ => (sign_within .comma).seq fun _ =>
    (varDecl_within _).seq fun _ => (sign_within .comma).seq fun _ =>
    (block_within (commands_within bound)).seq fun _ => (sign_within .rbrace).seq fun _ =>
    done_within _).mono fun _ => ?_
  -- header and locals are read in one go with the signs between them
  have below := mul_le_mul' (mul_le_mul' header_le (le_refl (wordsOf (.sign .lbrace))))
    (mul_le_mul' locals_le (le_refl (wordsOf (.part .block) * wordsOf (.sign .rbrace))))
  simpa only [functionStart, localDeclarations, wordsOf_append, wordsOf_nil, mul_one,
    mul_assoc] using below

/-- A function ends with its inner functions and a closing word, and others may follow. -/
theorem function_le :
    wordsOf (functionStart ++ .part .functions ++ .word .endWord ++ .part .functions) ≤
      wordsOf (.part .functions) := by
  have body := alternative_le .body 0 rfl
  have function := alternative_le .function 0 rfl
  have functions := alternative_le .functions 1 rfl
  rw [wordsOf_append] at function functions
  calc
    wordsOf (functionStart ++ .part .functions ++ .word .endWord ++ .part .functions)
        = wordsOf (.part .header) * wordsOf (.sign .lbrace ++ .part .locals ++ .part .block
            ++ .sign .rbrace ++ .part .functions ++ .word .endWord) * wordsOf (.part .functions) := by
          simp only [functionStart, wordsOf_append, mul_assoc]
    _ ≤ wordsOf (.part .header) * wordsOf (.part .body) * wordsOf (.part .functions) :=
          mul_le_mul' (mul_le_mul' le_rfl body) le_rfl
    _ ≤ wordsOf (.part .function) * wordsOf (.part .functions) := mul_le_mul' function le_rfl
    _ ≤ wordsOf (.part .functions) := functions

/-- Functions one after the other, with the functions inside each: the induction is on the bound. -/
theorem functions_within (bound : Nat) :
    Within (functions bound) fun _ => wordsOf (.part .functions) := by
  have empty : [] ∈ wordsOf (.part .functions) := nil_mem_wordsOf (.head _)
  induction bound with
  | zero => exact .pure empty
  | succ bound ih =>
    refine Within.peek fun next => ?_
    split
    · refine ((functionHead_within bound).seq fun _ => ih.seq fun _ => (word_within .endWord).seq
        fun _ => ih.seq fun _ => done_within _).mono fun _ => ?_
      simpa only [wordsOf_append, wordsOf_nil, mul_one, mul_assoc] using function_le
    · exact .pure empty

/-- At the end nothing is read. -/
theorem endOfInput_within : Within endOfInput fun _ => wordsOf [] where
  accepts := by
    intro input a rest read
    unfold endOfInput at read
    split at read
    · cases read
      exact ⟨[], rfl, Language.nil_mem_one⟩
    · cases read
  viable := by
    intro input e rest stopped
    unfold endOfInput at stopped
    split at stopped
    · cases stopped
    · cases stopped
      exact ⟨[], rfl, [], (), Language.nil_mem_one⟩
  inhabited := ⟨[], (), Language.nil_mem_one⟩

/-- The whole program. -/
theorem program_within (source : SourceText) (bound : Nat) :
    Within (program source bound) fun _ => wordsOf (.part .program) := by
  refine ((word_within .mainWord).seq fun _ => (globals_within bound).seq fun _ =>
    (block_within (commands_within bound)).seq fun _ => (functions_within bound).seq fun _ =>
    endOfInput_within.seq fun _ => done_within _).mono fun _ => ?_
  have below := alternative_le .program 0 rfl
  simpa only [wordsOf_append, wordsOf_nil, mul_one, mul_assoc] using below

/-- A program is read up to the end of the tokens. -/
theorem eq_nil_of_program {source : SourceText} {bound : Nat} {input rest : List Token}
    {p : Program} (read : program source bound input = .ok p rest) : rest = [] := by
  simp only [program, bind_eq_ok, pure_eq_ok] at read
  rcases read with ⟨_, _, _, _, _, _, _, _, _, _, _, _, _, _, readEnd, _, rfl⟩
  unfold endOfInput at readEnd
  split at readEnd
  · cases readEnd
    rfl
  · cases readEnd

end Parser

/-! ## Whole programs -/

/-- A program that is read is a sentence of the grammar. -/
theorem mem_language_of_program {source : SourceText} {bound : Nat} {input rest : List Token}
    {p : Program} (read : Parser.program source bound input = .ok p rest) :
    input.map Token.kind ∈ grammar.language := by
  rcases (Parser.program_within source bound).accepts read with ⟨front, whole, member⟩
  rw [Parser.eq_nil_of_program read, List.append_nil] at whole
  rw [wordsOf_part] at member
  exact whole ▸ member

/-- Where parsing stops, the tokens in front begin a sentence. -/
theorem viable_of_program {source : SourceText} {bound : Nat} {input rest : List Token}
    {e : Expected} (stopped : Parser.program source bound input = .error e rest) :
    ∃ front, input = front ++ rest ∧ ∃ w ∈ grammar.language, front.map Token.kind <+: w := by
  rcases (Parser.program_within source bound).viable stopped with ⟨front, whole, more, _, member⟩
  rw [wordsOf_part] at member
  exact ⟨front, whole, _, member, List.prefix_append _ _⟩

end SplBasic
