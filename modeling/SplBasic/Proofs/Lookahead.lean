import SplBasic.Proofs.ParserCompleteness
import SplBasic.Proofs.Relabelling

/-!
# What a parser looks at

A parser decides by kinds, and never looks beyond the next token. `Parser.Mirrors ρ parser mirror`
says so: whatever `parser` reads, `mirror` reads from the relabelled tokens in the same way, even if
the input goes on differently behind the next token. It holds of every nonterminal and itself, up to
relabelling the results.

* `Parser.program_mirrors` : for whole programs, with success and failure alike.
-/

namespace SplBasic

namespace Parser

variable {α β γ δ : Type} {ρ : Relabelling}

/-- The next token of the second list is the relabelled next token of the first one. -/
def SameNext (ρ : Relabelling) (rest rest' : List Token) : Prop :=
  rest'.head? = rest.head?.map ρ.token

/-- The next token has the same kind on both sides. -/
theorem SameNext.nextKind {rest rest' : List Token} (same : SameNext ρ rest rest') :
    nextKind rest' = nextKind rest := by
  rw [Parser.nextKind, same, Parser.nextKind, Option.map_map]
  congr 1
  funext t
  exact ρ.kind_token t

/-- What was read before does not change what comes next. -/
theorem SameNext.append {rest rest' : List Token} (same : SameNext ρ rest rest')
    (front : List Token) : SameNext ρ (front ++ rest) (front.map ρ.token ++ rest') := by
  cases front with
  | nil => exact same
  | cons t front => rfl

theorem sameNext_map (ρ : Relabelling) (rest : List Token) : SameNext ρ rest (rest.map ρ.token) :=
  List.head?_map

/-- What the parser reads, its mirror reads relabelled, with related results; where the parser
stops, its mirror stops for the same reason. -/
structure Mirrors (ρ : Relabelling) (parser : Parser α) (mirror : Parser β)
    (related : α → β → Prop) : Prop where
  ok : ∀ ⦃input a rest⦄, parser input = .ok a rest →
    ∃ front b, input = front ++ rest ∧ related a b ∧
      ∀ rest', SameNext ρ rest rest' → mirror (front.map ρ.token ++ rest') = .ok b rest'
  error : ∀ ⦃input e rest⦄, parser input = .error e rest →
    ∃ front, input = front ++ rest ∧
      ∀ rest', SameNext ρ rest rest' → mirror (front.map ρ.token ++ rest') = .error e rest'

namespace Mirrors

/-- Two steps mirror each other if the first do and, with related results, the second do. -/
theorem bind {parser : Parser α} {mirror : Parser β} {related : α → β → Prop} {next : α → Parser γ}
    {mirrorNext : β → Parser δ} {related' : γ → δ → Prop} (first : Mirrors ρ parser mirror related)
    (second : ∀ a b, related a b → Mirrors ρ (next a) (mirrorNext b) related') :
    Mirrors ρ (parser >>= next) (mirror >>= mirrorNext) related' where
  ok := by
    intro input c rest read
    rcases bind_eq_ok.1 read with ⟨a, middle, readFirst, readSecond⟩
    rcases first.ok readFirst with ⟨front, b, rfl, isRelated, mirrorFirst⟩
    rcases (second a b isRelated).ok readSecond with ⟨front', d, rfl, isRelated', mirrorSecond⟩
    -- the first mirror looks at most at the next token, which is one of the second or of the rest
    refine ⟨front ++ front', d, by simp, isRelated', fun rest' same => ?_⟩
    rw [List.map_append, List.append_assoc]
    apply bind_eq_ok.2
    exact ⟨b, _, mirrorFirst _ (same.append front'), mirrorSecond rest' same⟩
  error := by
    intro input e rest stopped
    rcases bind_eq_error.1 stopped with stoppedFirst | ⟨a, middle, readFirst, stoppedSecond⟩
    · rcases first.error stoppedFirst with ⟨front, whole, mirrorFirst⟩
      refine ⟨front, whole, fun rest' same => ?_⟩
      apply bind_eq_error.2
      exact .inl (mirrorFirst rest' same)
    · rcases first.ok readFirst with ⟨front, b, rfl, isRelated, mirrorFirst⟩
      rcases (second a b isRelated).error stoppedSecond with ⟨front', rfl, mirrorSecond⟩
      refine ⟨front ++ front', by simp, fun rest' same => ?_⟩
      rw [List.map_append, List.append_assoc]
      apply bind_eq_error.2
      exact .inr ⟨b, _, mirrorFirst _ (same.append front'), mirrorSecond rest' same⟩

/-- Giving back related results is mirrored. -/
protected theorem pure {a : α} {b : β} {related : α → β → Prop} (isRelated : related a b) :
    Mirrors ρ (pure a) (pure b) related where
  ok := by
    intro input a' rest read
    rcases pure_eq_ok.1 read with ⟨rfl, rfl⟩
    exact ⟨[], b, rfl, isRelated, fun _ _ => rfl⟩
  error := by
    intro input e rest stopped
    cases stopped

/-- A fault is mirrored by the same fault. -/
theorem throw (e : Expected) {related : α → β → Prop} :
    Mirrors ρ (MonadExcept.throw e : Parser α) (MonadExcept.throw e : Parser β) related where
  ok := fun _ _ _ read => absurd read throw_eq_ok
  error := by
    intro input e' rest stopped
    cases stopped
    exact ⟨[], rfl, fun _ _ => rfl⟩

/-- Related results stay related behind related functions. -/
theorem map {parser : Parser α} {mirror : Parser β} {related : α → β → Prop} {f : α → γ} {g : β → δ}
    {related' : γ → δ → Prop} (mirrors : Mirrors ρ parser mirror related)
    (mapped : ∀ a b, related a b → related' (f a) (g b)) :
    Mirrors ρ (f <$> parser) (g <$> mirror) related' :=
  mirrors.bind fun a b isRelated => .pure (mapped a b isRelated)

/-- Looking ahead shows the same kind on both sides. -/
theorem peek {next : Option TokenKind → Parser α} {mirrorNext : Option TokenKind → Parser β}
    {related : α → β → Prop} (mirrors : ∀ kind, Mirrors ρ (next kind) (mirrorNext kind) related) :
    Mirrors ρ (Parser.peek >>= next) (Parser.peek >>= mirrorNext) related where
  ok := by
    intro input a rest read
    rw [peek_bind_eq] at read
    rcases (mirrors _).ok read with ⟨front, b, rfl, isRelated, mirrored⟩
    refine ⟨front, b, rfl, isRelated, fun rest' same => ?_⟩
    rw [peek_bind_eq, (same.append front).nextKind]
    exact mirrored rest' same
  error := by
    intro input e rest stopped
    rw [peek_bind_eq] at stopped
    rcases (mirrors _).error stopped with ⟨front, rfl, mirrored⟩
    refine ⟨front, rfl, fun rest' same => ?_⟩
    rw [peek_bind_eq, (same.append front).nextKind]
    exact mirrored rest' same

/-- A single token is taken on one side if its relabelled token is taken on the other. -/
theorem one {expected : Expected} {accept : Token → Option α} {mirrorAccept : Token → Option β}
    {related : α → β → Prop}
    (mirrored : ∀ t, Option.Rel related (accept t) (mirrorAccept (ρ.token t))) :
    Mirrors ρ (Parser.one expected accept) (Parser.one expected mirrorAccept) related where
  ok := by
    intro input a rest read
    rcases one_eq_ok.1 read with ⟨t, rfl, accepted⟩
    have both := mirrored t
    rw [accepted] at both
    cases mirrorAccepted : mirrorAccept (ρ.token t) with
    | none =>
      rw [mirrorAccepted] at both
      cases both
    | some b =>
      rw [mirrorAccepted] at both
      cases both with
      | some isRelated =>
        refine ⟨[t], b, rfl, isRelated, fun rest' _ => ?_⟩
        apply one_eq_ok.2
        exact ⟨ρ.token t, rfl, mirrorAccepted⟩
  error := by
    intro input e rest stopped
    rcases one_eq_error.1 stopped with ⟨rfl, rfl, refused⟩
    refine ⟨[], rfl, fun rest' same => ?_⟩
    apply one_eq_error.2
    refine ⟨rfl, rfl, fun t' next => ?_⟩
    -- the next token on the other side is the relabelled one that is refused on this side
    rw [List.map_nil, List.nil_append, same, Option.mem_def, Option.map_eq_some_iff] at next
    rcases next with ⟨t, isNext, rfl⟩
    have both := mirrored t
    rw [refused t isNext] at both
    cases mirrorAccepted : mirrorAccept (ρ.token t) with
    | none => rfl
    | some b =>
      rw [mirrorAccepted] at both
      cases both

end Mirrors

/-! ## Expressions -/

/-- A token of a fixed kind is mirrored, as relabelling keeps kinds. -/
theorem expect_mirrors (kind : TokenKind) :
    Mirrors ρ (expect kind) (expect kind) fun t t' => t.kind = kind ∧ t' = ρ.token t := by
  refine Mirrors.one fun t => ?_
  rw [ρ.kind_token]
  split
  · rename_i same
    exact .some ⟨same, rfl⟩
  · exact .none

theorem word_mirrors (word : Keyword) :
    Mirrors ρ (expectWord word) (expectWord word)
      fun t t' => t.kind = .keyword word ∧ t' = ρ.token t :=
  expect_mirrors _

theorem sign_mirrors (sign : Punctuation) :
    Mirrors ρ (expectSign sign) (expectSign sign)
      fun t t' => t.kind = .punctuation sign ∧ t' = ρ.token t :=
  expect_mirrors _

/-- A name is read as the relabelled name. -/
theorem variableName_mirrors :
    Mirrors ρ variableName variableName fun n n' => n' = n.relabel ρ := by
  refine (expect_mirrors _).map ?_
  rintro t _ ⟨kind, rfl⟩
  exact (Name.ofToken_relabel ρ (by simp [Token.isName, kind])).symm

theorem functionName_mirrors :
    Mirrors ρ functionName functionName fun n n' => n' = n.relabel ρ := by
  refine (expect_mirrors _).map ?_
  rintro t _ ⟨kind, rfl⟩
  exact (Name.ofToken_relabel ρ (by simp [Token.isName, kind])).symm

/-- Kinds tell names from literals, so an atom is read as the relabelled atom. -/
theorem atom_mirrors : Mirrors ρ atom atom fun a a' => a' = a.map ρ.change := by
  refine Mirrors.one fun t => ?_
  unfold atomOfToken?
  rw [ρ.kind_token]
  split
  · rename_i kind
    exact .some (congrArg Atom.name
      (Name.ofToken_relabel ρ (by simp [Token.isName, kind])).symm)
  · rename_i kind
    rw [ρ.token_of_literal (.inl kind)]
    exact .some rfl
  · rename_i kind
    rw [ρ.token_of_literal (.inr kind)]
    exact .some rfl
  · exact .none

/-- Whether an operand is an atom is told by the next token. -/
theorem operand_mirrors {operation mirror : Parser Expr}
    (mirrors : Mirrors ρ operation mirror fun e e' => e' = e.map ρ.change) :
    Mirrors ρ (operand operation) (operand mirror) fun e e' => e' = e.map ρ.change := by
  refine Mirrors.peek fun next => ?_
  split
  · exact mirrors
  · refine atom_mirrors.map ?_
    rintro a _ rfl
    rfl

/-- The operator is the same, its token is the relabelled one. -/
theorem operator_mirrors (expected : Expected) :
    Mirrors ρ (one expected fun token => token.kind.operator?.map (·, token))
      (one expected fun token => token.kind.operator?.map (·, token))
      fun a b => b = (a.1, ρ.token a.2) := by
  refine Mirrors.one fun t => ?_
  rw [ρ.kind_token]
  cases t.kind.operator? with
  | none => exact .none
  | some op => exact .some rfl

/-- Operations are mirrored at any depth, by induction on the bound. -/
theorem operation_mirrors (bound : Nat) :
    Mirrors ρ (operation bound) (operation bound) fun e e' => e' = e.map ρ.change := by
  induction bound with
  | zero => exact .throw _
  | succ bound ih =>
    have operandMirrors := operand_mirrors ih
    refine (operator_mirrors _).bind ?_
    rintro ⟨op, t⟩ _ rfl
    refine (sign_mirrors _).bind fun _ _ _ => operandMirrors.bind ?_
    rintro left _ rfl
    -- both sides read the same operator, so they expect the same number of operands
    cases op with
    | unary op => exact (sign_mirrors _).bind fun _ _ _ => .pure rfl
    | binary op =>
      refine (sign_mirrors _).bind fun _ _ _ => operandMirrors.bind ?_
      rintro right _ rfl
      exact (sign_mirrors _).bind fun _ _ _ => .pure rfl

/-- A call is read as the relabelled call. -/
theorem call_mirrors : Mirrors ρ call call fun c c' => c' = c.map ρ.change := by
  refine functionName_mirrors.bind ?_
  rintro callee _ rfl
  refine (sign_mirrors _).bind fun _ _ _ => atom_mirrors.bind ?_
  rintro first _ rfl
  refine (sign_mirrors _).bind fun _ _ _ => atom_mirrors.bind ?_
  rintro second _ rfl
  refine (sign_mirrors _).bind fun _ _ _ => atom_mirrors.bind ?_
  rintro third _ rfl
  exact (sign_mirrors _).bind fun _ _ _ => .pure rfl

/-- The next token tells what kind of term follows. -/
theorem term_mirrors (bound : Nat) :
    Mirrors ρ (term bound) (term bound) fun value value' => value' = value.map ρ.change := by
  have exprMirrors : Mirrors ρ (Expr.atom <$> atom) (Expr.atom <$> atom)
      fun e e' => e' = e.map ρ.change := by
    refine atom_mirrors.map ?_
    rintro a _ rfl
    rfl
  have atomMirrors : Mirrors ρ (Term.expr <$> Expr.atom <$> atom) (Term.expr <$> Expr.atom <$> atom)
      fun value value' => value' = value.map ρ.change := by
    refine exprMirrors.map ?_
    rintro e _ rfl
    rfl
  refine Mirrors.peek fun next => ?_
  split
  · exact atomMirrors
  · exact atomMirrors
  · exact atomMirrors
  · refine call_mirrors.map ?_
    rintro c _ rfl
    rfl
  · refine (operation_mirrors bound).map ?_
    rintro e _ rfl
    rfl
  · exact .throw _

/-! ## Commands -/

/-- The value that is assigned is read as the relabelled value. -/
theorem assignment_mirrors (bound : Nat) (target : Name) :
    Mirrors ρ (assignment bound target) (assignment bound (target.relabel ρ))
      fun command command' => command' = command.map ρ.change := by
  refine Mirrors.peek fun next => ?_
  split
  · refine (sign_mirrors _).bind fun _ _ _ => (word_mirrors _).bind ?_
    rintro keyword _ ⟨_, rfl⟩
    exact .pure rfl
  · refine (sign_mirrors _).bind fun _ _ _ => (term_mirrors bound).bind ?_
    rintro value _ rfl
    exact .pure rfl
  · exact .throw _

/-- A command that is a word and an atom. -/
theorem wordAndAtom_mirrors (word : Keyword) {build : Token → Atom → SimpleCommand}
    (built : ∀ t a, build (ρ.token t) (a.map ρ.change) = (build t a).map ρ.change) :
    Mirrors ρ (build <$> expectWord word <*> atom) (build <$> expectWord word <*> atom)
      fun command command' => command' = command.map ρ.change := by
  have wordMirrors : Mirrors ρ (build <$> expectWord word) (build <$> expectWord word)
      fun g g' => ∀ a, g' (a.map ρ.change) = (g a).map ρ.change := by
    refine (word_mirrors word).map ?_
    rintro t _ ⟨_, rfl⟩
    exact built t
  have unfolded : build <$> expectWord word <*> atom =
      (build <$> expectWord word) >>= fun g => g <$> atom := rfl
  rw [unfolded]
  refine wordMirrors.bind fun g g' sameWord => atom_mirrors.map ?_
  rintro a _ rfl
  exact sameWord a

/-- The first token tells the command, so both sides read the same one. -/
theorem simpleCommand_mirrors (bound : Nat) :
    Mirrors ρ (simpleCommand bound) (simpleCommand bound)
      fun command command' => command' = command.map ρ.change := by
  refine Mirrors.peek fun next => ?_
  split
  · refine (word_mirrors _).map ?_
    rintro t _ ⟨_, rfl⟩
    rfl
  · refine (word_mirrors _).map ?_
    rintro t _ ⟨_, rfl⟩
    rfl
  · exact wordAndAtom_mirrors _ fun _ _ => rfl
  · exact wordAndAtom_mirrors _ fun _ _ => rfl
  · refine variableName_mirrors.bind ?_
    rintro target _ rfl
    exact assignment_mirrors bound target
  · refine call_mirrors.map ?_
    rintro c _ rfl
    rfl
  · exact .throw _

/-- A sign is there on both sides or on none. -/
theorem skipSign_mirrors (sign : Punctuation) :
    Mirrors ρ (skipSign sign) (skipSign sign) fun present present' => present' = present := by
  refine Mirrors.peek fun next => ?_
  split
  · exact (sign_mirrors sign).bind fun _ _ _ => .pure rfl
  · exact .pure rfl

theorem noCommands_mirrors (expected : Expected) :
    Mirrors ρ (noCommands expected) (noCommands expected) fun cs cs' => cs' = cs.map ρ.change := by
  refine Mirrors.peek fun next => ?_
  split
  · exact .pure rfl
  · exact .throw _

/-- Both sides go on behind a semicolon, or neither does. -/
theorem moreCommands_mirrors {commands mirror : Parser Commands}
    (mirrors : Mirrors ρ commands mirror fun cs cs' => cs' = cs.map ρ.change) :
    Mirrors ρ (moreCommands commands) (moreCommands mirror)
      fun cs cs' => cs' = cs.map ρ.change := by
  refine (skipSign_mirrors _).bind ?_
  rintro _ present rfl
  cases present with
  | true => exact mirrors
  | false => exact noCommands_mirrors _

/-- A block is mirrored if its commands are. -/
theorem block_mirrors {commands mirror : Parser Commands}
    (mirrors : Mirrors ρ commands mirror fun cs cs' => cs' = cs.map ρ.change) :
    Mirrors ρ (block commands) (block mirror) fun b b' => b' = b.map ρ.change := by
  refine (word_mirrors _).bind ?_
  rintro opening _ ⟨_, rfl⟩
  refine mirrors.bind ?_
  rintro cs _ rfl
  refine (word_mirrors _).bind ?_
  rintro closing _ ⟨_, rfl⟩
  exact .pure rfl

/-- Commands are mirrored with all blocks inside them, by induction on the bound. -/
theorem commands_mirrors (bound : Nat) :
    Mirrors ρ (commands bound) (commands bound) fun cs cs' => cs' = cs.map ρ.change := by
  induction bound with
  | zero => exact .throw _
  | succ bound ih =>
    refine Mirrors.peek fun next => ?_
    split
    · refine (word_mirrors _).bind ?_
      rintro keyword _ ⟨_, rfl⟩
      refine (operation_mirrors bound).bind ?_
      rintro condition _ rfl
      refine (word_mirrors _).bind fun _ _ _ => (block_mirrors ih).bind ?_
      rintro body _ rfl
      -- an alternative is read on both sides or on none
      refine Mirrors.peek fun next => ?_
      split
      · refine (word_mirrors _).bind fun _ _ _ => (block_mirrors ih).bind ?_
        rintro elseBody _ rfl
        refine (moreCommands_mirrors ih).bind ?_
        rintro rest _ rfl
        exact .pure rfl
      · refine (moreCommands_mirrors ih).bind ?_
        rintro rest _ rfl
        exact .pure rfl
    · split
      · refine (simpleCommand_mirrors bound).bind ?_
        rintro command _ rfl
        refine (moreCommands_mirrors ih).bind ?_
        rintro rest _ rfl
        exact .pure rfl
      · exact noCommands_mirrors _
    · exact noCommands_mirrors _

/-! ## Declarations -/

/-- A word for a type, whatever types there are. -/
theorem type_mirrors (ofKind? : TokenKind → Option α) (expected : Expected) :
    Mirrors ρ (one expected fun token => (ofKind? token.kind).map (token, ·))
      (one expected fun token => (ofKind? token.kind).map (token, ·))
      fun a b => b = (ρ.token a.1, a.2) := by
  refine Mirrors.one fun t => ?_
  rw [ρ.kind_token]
  cases ofKind? t.kind with
  | none => exact .none
  | some type => exact .some rfl

theorem varDecl_mirrors (expected : Expected) :
    Mirrors ρ (varDecl expected) (varDecl expected)
      fun decl decl' => decl' = decl.map ρ.change := by
  refine (type_mirrors ValueType.ofKind? expected).bind ?_
  rintro ⟨t, type⟩ _ rfl
  refine variableName_mirrors.bind ?_
  rintro name _ rfl
  exact .pure rfl

/-- Global variables are read as the relabelled ones. -/
theorem globals_mirrors (bound : Nat) :
    Mirrors ρ (globals bound) (globals bound)
      fun decls decls' => decls' = decls.map (VarDecl.map ρ.change) := by
  induction bound with
  | zero => exact .pure rfl
  | succ bound ih =>
    refine Mirrors.peek fun next => ?_
    split
    · refine (varDecl_mirrors _).bind ?_
      rintro decl _ rfl
      refine (skipSign_mirrors _).bind ?_
      rintro _ present rfl
      cases present with
      | true =>
        refine ih.bind ?_
        rintro decls _ rfl
        exact .pure rfl
      | false => exact .pure rfl
    · exact .pure rfl

/-- A function is mirrored up to its closing word, which is not yet read. -/
theorem functionHead_mirrors (bound : Nat) :
    Mirrors ρ (functionHead bound) (functionHead bound)
      fun head head' => ∀ closing, head' (ρ.token closing) = (head closing).map ρ.change := by
  refine (type_mirrors ReturnType.ofKind? .returnType).bind ?_
  rintro ⟨t, type⟩ _ rfl
  refine functionName_mirrors.bind ?_
  rintro name _ rfl
  refine (sign_mirrors _).bind fun _ _ _ => variableName_mirrors.bind ?_
  rintro param _ rfl
  refine (sign_mirrors _).bind fun _ _ _ => variableName_mirrors.bind ?_
  rintro param' _ rfl
  refine (sign_mirrors _).bind fun _ _ _ => variableName_mirrors.bind ?_
  rintro param'' _ rfl
  refine (sign_mirrors _).bind fun _ _ _ => (sign_mirrors _).bind fun _ _ _ =>
    (varDecl_mirrors _).bind ?_
  rintro decl _ rfl
  refine (sign_mirrors _).bind fun _ _ _ => (varDecl_mirrors _).bind ?_
  rintro decl' _ rfl
  refine (sign_mirrors _).bind fun _ _ _ => (varDecl_mirrors _).bind ?_
  rintro decl'' _ rfl
  refine (sign_mirrors _).bind fun _ _ _ => (block_mirrors (commands_mirrors bound)).bind ?_
  rintro body _ rfl
  exact (sign_mirrors _).bind fun _ _ _ => .pure fun _ => rfl

/-- Functions are mirrored with all functions inside them, by induction on the bound. -/
theorem functions_mirrors (bound : Nat) :
    Mirrors ρ (functions bound) (functions bound)
      fun forest forest' => forest' = forest.map (FunctionDecl.map ρ.change) := by
  induction bound with
  | zero => exact .pure rfl
  | succ bound ih =>
    refine Mirrors.peek fun next => ?_
    split
    · refine (functionHead_mirrors bound).bind ?_
      intro head head' sameHead
      refine ih.bind ?_
      rintro inner _ rfl
      refine (word_mirrors _).bind ?_
      rintro closing _ ⟨_, rfl⟩
      -- the head waits for the closing word, which is read behind the inner functions
      refine ih.bind ?_
      rintro rest _ rfl
      refine .pure ?_
      rw [sameHead]
      rfl
    · exact .pure rfl

/-- Both sides end at the same time. -/
theorem endOfInput_mirrors : Mirrors ρ endOfInput endOfInput fun _ _ => True where
  ok := by
    intro input a rest read
    unfold endOfInput at read
    split at read
    · cases read
      -- nothing is left on this side, so nothing comes next on the other side
      refine ⟨[], (), rfl, trivial, fun rest' same => ?_⟩
      rw [List.head?_eq_none_iff.1 same]
      rfl
    · cases read
  error := by
    intro input e rest stopped
    unfold endOfInput at stopped
    split at stopped
    · cases stopped
    · cases stopped
      rename_i nonempty
      refine ⟨[], rfl, fun rest' same => ?_⟩
      cases rest' with
      | nil =>
        have ends : input.head? = none := Option.map_eq_none_iff.1 same.symm
        exact absurd (List.head?_eq_none_iff.1 ends) nonempty
      | cons t more => rfl

/-- A program is read as the relabelled program; only the kept source text is not relabelled. -/
theorem program_mirrors (source source' : SourceText) (bound : Nat) :
    Mirrors ρ (program source bound) (program source' bound)
      fun p p' => p' = { p.relabel ρ with source := source' } := by
  refine (word_mirrors _).bind ?_
  rintro main _ ⟨_, rfl⟩
  refine (globals_mirrors bound).bind ?_
  rintro decls _ rfl
  refine (block_mirrors (commands_mirrors bound)).bind ?_
  rintro block _ rfl
  refine (functions_mirrors bound).bind ?_
  rintro functions _ rfl
  exact endOfInput_mirrors.bind fun _ _ _ => .pure rfl

end Parser

end SplBasic
