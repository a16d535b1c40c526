import SplBasic.Proofs.ParserCompleteness
import SplBasic.Proofs.ViablePrefix

/-!
# Sufficient bounds

The bound of a parser is there to make its recursion end. Every round reads a token, so any two
bounds that cover the input lead to the same result:

* `Parser.program_bound` : for whole programs.
-/

namespace SplBasic

namespace Parser

variable {α β : Type} {n : Nat}

/-- The parsers do the same on inputs of up to `n` tokens. -/
def SameUpTo (n : Nat) (parser parser' : Parser α) : Prop :=
  ∀ input : List Token, input.length ≤ n → parser input = parser' input

/-- The parser never adds to its input. -/
def Shrinks (parser : Parser α) : Prop :=
  ∀ ⦃input a rest⦄, parser input = .ok a rest → rest.length ≤ input.length

/-- The parser reads at least one token. -/
def Consumes (parser : Parser α) : Prop :=
  ∀ ⦃input a rest⦄, parser input = .ok a rest → rest.length < input.length

/-- What is left is never longer than the input. -/
theorem Within.shrinks {parser : Parser α} {words : α → Language TokenKind}
    (within : Within parser words) : Shrinks parser := by
  intro input a rest read
  rcases within.accepts read with ⟨front, rfl, _⟩
  simp

/-- Reading one token consumes it. -/
theorem one_consumes (expected : Expected) (accept : Token → Option α) :
    Consumes (one expected accept) := by
  intro input a rest read
  rcases one_eq_ok.1 read with ⟨t, rfl, _⟩
  simp

theorem expect_consumes (kind : TokenKind) : Consumes (expect kind) :=
  one_consumes _ _

theorem variableName_consumes : Consumes variableName := by
  intro input name rest read
  rcases variableName_eq_ok.1 read with ⟨t, rfl, _, _⟩
  simp

/-- A sign that is skipped is consumed; nothing else is. -/
theorem skipSign_cases {sign : Punctuation} {input rest : List Token} {present : Bool}
    (read : skipSign sign input = .ok present rest) :
    present = true ∧ rest.length < input.length ∨ present = false ∧ rest = input := by
  rw [skipSign, peek_bind_eq] at read
  split at read
  · rcases bind_eq_ok.1 read with ⟨t, middle, readSign, done⟩
    rcases expectSign_eq_ok.1 readSign with ⟨rfl, _⟩
    rcases pure_eq_ok.1 done with ⟨rfl, rfl⟩
    exact .inl ⟨rfl, by simp⟩
  · rcases pure_eq_ok.1 read with ⟨rfl, rfl⟩
    exact .inr ⟨rfl, rfl⟩

namespace SameUpTo

theorem refl (parser : Parser α) : SameUpTo n parser parser :=
  fun _ _ => rfl

/-- The second parser sees what the first one leaves, which is no longer than the input. -/
theorem bind {parser parser' : Parser α} {next next' : α → Parser β}
    (first : SameUpTo n parser parser') (shrinks : Shrinks parser)
    (second : ∀ a, SameUpTo n (next a) (next' a)) :
    SameUpTo n (parser >>= next) (parser' >>= next') := by
  intro input short
  simp only [Bind.bind, EStateM.bind, ← first input short]
  cases read : parser input with
  | ok a rest => exact second a rest ((shrinks read).trans short)
  | error e rest => rfl

/-- Behind a token that was read, the inputs are shorter. -/
theorem behind {parser parser' : Parser α} {next next' : α → Parser β}
    (first : SameUpTo n parser parser') (consumes : Consumes parser)
    (second : ∀ a, ∀ k < n, SameUpTo k (next a) (next' a)) :
    SameUpTo n (parser >>= next) (parser' >>= next') := by
  intro input short
  simp only [Bind.bind, EStateM.bind, ← first input short]
  cases read : parser input with
  | ok a rest => exact second a rest.length ((consumes read).trans_le short) rest le_rfl
  | error e rest => rfl

theorem map {parser parser' : Parser α} (same : SameUpTo n parser parser') (f : α → β) :
    SameUpTo n (f <$> parser) (f <$> parser') := by
  intro input short
  simp only [Functor.map, EStateM.map, same input short]

theorem peek {next next' : Option TokenKind → Parser β}
    (same : ∀ kind, SameUpTo n (next kind) (next' kind)) :
    SameUpTo n (Parser.peek >>= next) (Parser.peek >>= next') :=
  fun input short => same _ input short

/-- A sign that may be left out is a token less if it is there. -/
theorem optional {sign : Punctuation} {next next' : Bool → Parser β}
    (present : ∀ k < n, SameUpTo k (next true) (next' true))
    (absent : SameUpTo n (next false) (next' false)) :
    SameUpTo n (skipSign sign >>= next) (skipSign sign >>= next') := by
  intro input short
  simp only [Bind.bind, EStateM.bind]
  cases read : skipSign sign input with
  | ok isPresent rest =>
    rcases skipSign_cases read with ⟨rfl, shorter⟩ | ⟨rfl, rfl⟩
    · exact present rest.length (shorter.trans_le short) rest le_rfl
    · exact absent rest short
  | error e rest => rfl

/-- Bounds do not matter if they do not matter without tokens, and in each round only if they do on
shorter inputs. -/
theorem of_rounds (parser : Nat → Parser α) (empty : ∀ bound, parser bound [] = parser 0 [])
    (round : ∀ n bound bound', n ≤ bound + 1 → n ≤ bound' + 1 →
      (∀ k < n, SameUpTo k (parser bound) (parser bound')) →
      SameUpTo n (parser (bound + 1)) (parser (bound' + 1)))
    {bound bound' : Nat} (enough : n ≤ bound) (enough' : n ≤ bound') :
    SameUpTo n (parser bound) (parser bound') := by
  have noTokens (bound bound' : Nat) : SameUpTo 0 (parser bound) (parser bound') := by
    intro input short
    rw [List.eq_nil_of_length_eq_zero (Nat.le_zero.1 short), empty bound, empty bound']
  induction bound generalizing n bound' with
  | zero =>
    rw [Nat.le_zero.1 enough]
    exact noTokens 0 bound'
  | succ bound ih =>
    cases bound' with
    | zero =>
      rw [Nat.le_zero.1 enough']
      exact noTokens (bound + 1) 0
    | succ bound' =>
      -- with tokens left, both bounds allow one round, and shorter inputs are covered by induction
      apply round n bound bound' enough enough'
      intro k shorter
      exact ih (Nat.le_of_lt_succ (shorter.trans_le enough))
        (Nat.le_of_lt_succ (shorter.trans_le enough'))

end SameUpTo

/-! ## Expressions -/

/-- Operands agree if operations do. -/
theorem operand_bound {operation operation' : Parser Expr}
    (same : SameUpTo n operation operation') :
    SameUpTo n (operand operation) (operand operation') := by
  refine SameUpTo.peek fun next => ?_
  split
  · exact same
  · exact .refl _

theorem operation_nil (bound : Nat) : operation bound [] = .error .operation [] := by
  cases bound with
  | zero => rfl
  | succ bound => rfl

/-- A bound that is as large as the input has no effect, by induction on the first bound. -/
theorem operation_bound {bound bound' : Nat} (enough : n ≤ bound) (enough' : n ≤ bound') :
    SameUpTo n (operation bound) (operation bound') := by
  apply SameUpTo.of_rounds operation operation_nil _ enough enough'
  intro n bound bound' _ _ inner
  -- the operator is read before the bound is used
  refine SameUpTo.behind (.refl _) (one_consumes _ _) fun a k shorter => ?_
  have operands : SameUpTo k (operand (operation bound)) (operand (operation bound')) :=
    operand_bound (inner k shorter)
  have shrinks := (operand_within (operation_within bound .operation rfl)).shrinks
  refine SameUpTo.bind (.refl _) (sign_within _).shrinks fun _ => ?_
  refine operands.bind shrinks fun _ => ?_
  rcases a with ⟨op | op, t⟩
  · exact .refl _
  · refine SameUpTo.bind (.refl _) (sign_within _).shrinks fun _ => ?_
    exact operands.bind shrinks fun _ => .refl _

/-- The bound of a term is the bound of its operation. -/
theorem term_bound {bound bound' : Nat} (enough : n ≤ bound) (enough' : n ≤ bound') :
    SameUpTo n (term bound) (term bound') := by
  refine SameUpTo.peek fun next => ?_
  split
  · exact .refl _
  · exact .refl _
  · exact .refl _
  · exact .refl _
  · exact (operation_bound enough enough').map _
  · exact .refl _

/-! ## Commands -/

/-- The bound of an assignment is the bound of its term. -/
theorem assignment_bound {bound bound' : Nat} (enough : n ≤ bound) (enough' : n ≤ bound')
    (target : Name) : SameUpTo n (assignment bound target) (assignment bound' target) := by
  refine SameUpTo.peek fun next => ?_
  split
  · exact .refl _
  · exact SameUpTo.bind (.refl _) (sign_within _).shrinks fun _ =>
      (term_bound enough enough').bind (term_within bound).shrinks fun _ => .refl _
  · exact .refl _

/-- The bound is used behind the first token only. -/
theorem simpleCommand_bound {bound bound' : Nat} (enough : n ≤ bound + 1)
    (enough' : n ≤ bound' + 1) : SameUpTo n (simpleCommand bound) (simpleCommand bound') := by
  refine SameUpTo.peek fun next => ?_
  split
  · exact .refl _
  · exact .refl _
  · exact .refl _
  · exact .refl _
  · exact SameUpTo.behind (.refl _) variableName_consumes fun target k shorter =>
      assignment_bound (by omega) (by omega) target
  · exact .refl _
  · exact .refl _

/-- Behind a semicolon, fewer tokens are left. -/
theorem moreCommands_bound {commands commands' : Parser Commands}
    (same : ∀ k < n, SameUpTo k commands commands') :
    SameUpTo n (moreCommands commands) (moreCommands commands') :=
  SameUpTo.optional same (.refl _)

/-- The bound of a block is the bound of its commands. -/
theorem block_bound {commands commands' : Parser Commands} (shrinks : Shrinks commands)
    (same : SameUpTo n commands commands') : SameUpTo n (block commands) (block commands') :=
  SameUpTo.bind (.refl _) (word_within _).shrinks fun _ => same.bind shrinks fun _ => .refl _

theorem commands_nil (bound : Nat) : commands bound [] = .error .commandOrEnd [] := by
  cases bound with
  | zero => rfl
  | succ bound => rfl

/-- Each command consumes a token, so that the rest fits into the smaller bound. -/
theorem commands_bound {bound bound' : Nat} (enough : n ≤ bound) (enough' : n ≤ bound') :
    SameUpTo n (commands bound) (commands bound') := by
  -- one round of the parser is looked at; `inner` is what is known of shorter inputs
  apply SameUpTo.of_rounds commands commands_nil _ enough enough'
  intro n bound bound' enough enough' inner
  have moreShrinks := (moreCommands_within (commands_within bound)).shrinks
  have blockShrinks := (block_within (commands_within bound)).shrinks
  refine SameUpTo.peek fun next => ?_
  split
  · -- everything behind the first word of a branch is shorter
    refine SameUpTo.behind (.refl _) (expect_consumes _) fun _ k shorter => ?_
    have blocks : SameUpTo k (block (commands bound)) (block (commands bound')) :=
      block_bound (commands_within bound).shrinks (inner k shorter)
    have more : SameUpTo k (moreCommands (commands bound)) (moreCommands (commands bound')) :=
      moreCommands_bound fun l shorter' => inner l (shorter'.trans shorter)
    refine (operation_bound (by omega) (by omega)).bind
      (operation_within bound .condition rfl).shrinks fun _ => ?_
    refine SameUpTo.bind (.refl _) (word_within _).shrinks fun _ => ?_
    refine blocks.bind blockShrinks fun _ => ?_
    refine SameUpTo.peek fun next => ?_
    split
    · exact SameUpTo.bind (.refl _) (word_within _).shrinks fun _ => blocks.bind blockShrinks
        fun _ => more.bind moreShrinks fun _ => .refl _
    · exact more.bind moreShrinks fun _ => .refl _
  · split
    · refine (simpleCommand_bound enough enough').bind (simpleCommand_within bound).shrinks ?_
      intro _
      exact (moreCommands_bound inner).bind moreShrinks fun _ => .refl _
    · exact .refl _
  · exact .refl _

/-! ## Declarations -/

theorem globals_nil (bound : Nat) : globals bound [] = .ok [] [] := by
  cases bound with
  | zero => rfl
  | succ bound => rfl

/-- Each declaration consumes a token, so that the rest fits into the smaller bound. -/
theorem globals_bound {bound bound' : Nat} (enough : n ≤ bound) (enough' : n ≤ bound') :
    SameUpTo n (globals bound) (globals bound') := by
  apply SameUpTo.of_rounds globals globals_nil _ enough enough'
  intro n bound bound' _ _ inner
  refine SameUpTo.peek fun next => ?_
  split
  · refine SameUpTo.bind (.refl _) (varDecl_within _).shrinks fun decl => ?_
    refine SameUpTo.optional (fun k shorter => ?_) (.refl _)
    exact (inner k shorter).bind (globals_within bound).shrinks fun _ => .refl _
  · exact .refl _

/-- The type and the name are consumed before a bound matters. -/
theorem functionHead_bound {bound bound' : Nat} (enough : n ≤ bound + 1)
    (enough' : n ≤ bound' + 1) :
    SameUpTo n (functionHead bound) (functionHead bound') := by
  refine SameUpTo.behind (.refl _) (one_consumes _ _) fun _ k shorter => ?_
  have bodies : SameUpTo k (block (commands bound)) (block (commands bound')) :=
    block_bound (commands_within bound).shrinks (commands_bound (by omega) (by omega))
  -- signs, names and declarations do not use the bound, so they are the same on both sides
  have sign {next next' : Token → Parser (Token → FunctionDecl)} (s : Punctuation)
      (same : ∀ t, SameUpTo k (next t) (next' t)) :
      SameUpTo k (expectSign s >>= next) (expectSign s >>= next') :=
    SameUpTo.bind (.refl _) (sign_within s).shrinks same
  have name {next next' : Name → Parser (Token → FunctionDecl)}
      (same : ∀ n, SameUpTo k (next n) (next' n)) :
      SameUpTo k (variableName >>= next) (variableName >>= next') :=
    SameUpTo.bind (.refl _) variableName_within.shrinks same
  have decl {next next' : VarDecl → Parser (Token → FunctionDecl)}
      (same : ∀ d, SameUpTo k (next d) (next' d)) :
      SameUpTo k (varDecl .localType >>= next) (varDecl .localType >>= next') :=
    SameUpTo.bind (.refl _) (varDecl_within _).shrinks same
  refine SameUpTo.bind (.refl _) functionName_within.shrinks fun _ => ?_
  refine sign _ fun _ => name fun _ => sign _ fun _ => name fun _ => sign _ fun _ => ?_
  refine name fun _ => sign _ fun _ => sign _ fun _ => decl fun _ => sign _ fun _ => ?_
  refine decl fun _ => sign _ fun _ => ?_
  refine decl fun _ => sign _ fun _ => ?_
  exact bodies.bind (block_within (commands_within bound)).shrinks fun _ => .refl _

/-- The head of a function consumes at least its type. -/
theorem functionHead_consumes (bound : Nat) : Consumes (functionHead bound) := by
  intro input head rest read
  rcases functionHead_sound bound read with ⟨front, rfl, spelt⟩
  rcases exists_type_of_head (spelt ⟨.eof, "", .start, ""⟩).1 with ⟨t, more, rfl, _⟩
  simp only [List.length_append, List.length_cons]
  omega

theorem functions_nil (bound : Nat) : functions bound [] = .ok .nil [] := by
  cases bound with
  | zero => rfl
  | succ bound => rfl

/-- Each function consumes its head, so that what is left fits into the smaller bound. -/
theorem functions_bound {bound bound' : Nat} (enough : n ≤ bound) (enough' : n ≤ bound') :
    SameUpTo n (functions bound) (functions bound') := by
  apply SameUpTo.of_rounds functions functions_nil _ enough enough'
  intro n bound bound' enough enough' inner
  have shrinks := (functions_within bound).shrinks
  refine SameUpTo.peek fun next => ?_
  split
  · refine (functionHead_bound enough enough').behind (functionHead_consumes bound) ?_
    intro head k shorter
    refine (inner k shorter).bind shrinks fun _ => ?_
    refine SameUpTo.bind (.refl _) (word_within _).shrinks fun _ => ?_
    exact (inner k shorter).bind shrinks fun _ => .refl _
  · exact .refl _

/-- Bounds that cover the input lead to the same program or to the same failure. -/
theorem program_bound (source : SourceText) {bound bound' : Nat} {input : List Token}
    (enough : input.length ≤ bound) (enough' : input.length ≤ bound') :
    program source bound input = program source bound' input := by
  have same : SameUpTo input.length (program source bound) (program source bound') := by
    refine SameUpTo.bind (.refl _) (word_within _).shrinks fun _ => ?_
    refine (globals_bound enough enough').bind (globals_within bound).shrinks fun _ => ?_
    refine (block_bound (commands_within bound).shrinks (commands_bound enough enough')).bind
      (block_within (commands_within bound)).shrinks fun _ => ?_
    exact (functions_bound enough enough').bind (functions_within bound).shrinks fun _ => .refl _
  exact same input le_rfl

end Parser

end SplBasic
