import SplBasic.Proofs.ParserSoundness

/-!
# Spelt programs are parsed

The converse of soundness: where the tokens of a tree come next, the parser of its nonterminal reads
exactly these tokens and returns this tree, provided that what follows cannot belong to the tree and
that the bound covers the tokens.

* `parse_of_spelt` : tokens that spell a program are parsed to it, so no tokens spell two programs.
-/

namespace SplBasic

namespace Parser

variable {α β : Type}

def nextKind (tokens : List Token) : Option TokenKind :=
  tokens.head?.map Token.kind

@[simp] theorem nextKind_cons (t : Token) (ts : List Token) :
    nextKind (t :: ts) = some t.kind := rfl

/-- Looking ahead picks the parser for the next kind. -/
theorem peek_bind_eq (f : Option TokenKind → Parser β) (input : List Token) :
    (peek >>= f) input = f (nextKind input) input := rfl

/-! ## Expressions -/

/-- The token of an atom is read as the atom. -/
theorem atom_complete {a : Atom} {ts : List Token} (spelt : a.SpeltBy ts) (rest : List Token) :
    atom (ts ++ rest) = .ok a rest := by
  cases spelt with
  | «variable» kind => exact one_eq_ok.2 ⟨_, rfl, by simp [atomOfToken?, kind]⟩
  | number kind => exact one_eq_ok.2 ⟨_, rfl, by simp [atomOfToken?, kind]⟩
  | text kind => exact one_eq_ok.2 ⟨_, rfl, by simp [atomOfToken?, kind]⟩

/-- An atom is one token, and not an operator. -/
theorem exists_token_of_atom {a : Atom} {ts : List Token} (spelt : a.SpeltBy ts) :
    ∃ t, ts = [t] ∧ (t.kind = .varName ∨ t.kind = .numLit ∨ t.kind = .textLit) := by
  cases spelt with
  | «variable» kind => exact ⟨_, rfl, .inl kind⟩
  | number kind => exact ⟨_, rfl, .inr (.inl kind)⟩
  | text kind => exact ⟨_, rfl, .inr (.inr kind)⟩

/-- An operation starts with its operator. -/
theorem exists_operator_of_operation {e : Expr} {ts : List Token} (spelt : e.SpeltBy ts)
    (isOperation : e.IsOperation) : ∃ t more op, ts = t :: more ∧ t.kind = .operator op := by
  cases spelt with
  | atom _ => exact isOperation.elim
  | unary kind _ _ _ => exact ⟨_, _, _, rfl, kind⟩
  | binary kind _ _ _ _ _ => exact ⟨_, _, _, rfl, kind⟩

/-- The next token tells whether an operand is an atom. -/
theorem operand_complete {operation : Parser Expr} {e : Expr} {ts rest : List Token}
    (spelt : e.SpeltBy ts) (complete : e.IsOperation → operation (ts ++ rest) = .ok e rest) :
    operand operation (ts ++ rest) = .ok e rest := by
  rw [operand, peek_bind_eq]
  by_cases isOperation : e.IsOperation
  · rcases exists_operator_of_operation spelt isOperation with ⟨t, more, op, rfl, kind⟩
    simp only [List.cons_append, nextKind_cons, kind]
    exact complete isOperation
  · cases spelt with
    | atom spelt =>
      have read : (Expr.atom <$> atom) (ts ++ rest) = .ok (Expr.atom _) rest :=
        map_eq_ok.2 ⟨_, atom_complete spelt rest, rfl⟩
      rcases exists_token_of_atom spelt with ⟨t, rfl, kind | kind | kind⟩
      · simpa [kind] using read
      · simpa [kind] using read
      · simpa [kind] using read
    | unary _ _ _ _ => exact absurd trivial isOperation
    | binary _ _ _ _ _ _ => exact absurd trivial isOperation

theorem operator_complete {t : Token} {op : Operator} (kind : t.kind = .operator op)
    (rest : List Token) :
    one .operation (fun token => token.kind.operator?.map (·, token)) (t :: rest) =
      .ok (op, t) rest :=
  one_eq_ok.2 ⟨t, rfl, by simp [kind, TokenKind.operator?]⟩

theorem expectSign_complete {t : Token} {sign : Punctuation} (isSign : t.IsSign sign)
    (rest : List Token) : expectSign sign (t :: rest) = .ok t rest :=
  expectSign_eq_ok.2 ⟨rfl, isSign⟩

theorem expectWord_complete {t : Token} {word : Keyword} (isWord : t.IsWord word)
    (rest : List Token) : expectWord word (t :: rest) = .ok t rest :=
  expectWord_eq_ok.2 ⟨rfl, isWord⟩

/-- Operations are read with all their operands, by induction on how they are spelt. -/
theorem operation_complete {e : Expr} {ts : List Token} (spelt : e.SpeltBy ts)
    (isOperation : e.IsOperation) {bound : Nat} (enough : ts.length ≤ bound) (rest : List Token) :
    operation bound (ts ++ rest) = .ok e rest := by
  -- the induction is on the tree: each operand is shorter than the operation by its brackets
  induction spelt generalizing bound rest with
  | atom _ => exact isOperation.elim
  | @unary op t l r operand ts kind isLparen spelt isRparen ih =>
    cases bound with
    | zero => simp at enough
    | succ bound =>
      simp only [List.length_cons, List.length_append, List.length_nil] at enough
      have readOperand : Parser.operand (operation bound) (ts ++ r :: rest) =
          .ok operand (r :: rest) :=
        operand_complete spelt fun isOperation => ih isOperation (by omega) _
      simp only [List.cons_append, List.append_assoc, List.nil_append, operation, bind_eq_ok]
      refine ⟨_, _, operator_complete kind _, _, _, expectSign_complete isLparen _, _, _,
        readOperand, ?_⟩
      exact bind_eq_ok.2 ⟨_, _, expectSign_complete isRparen _, rfl⟩
  | @binary op t l c r left right ts ts' kind isLparen spelt isComma spelt' isRparen ih ih' =>
    cases bound with
    | zero => simp at enough
    | succ bound =>
      simp only [List.length_cons, List.length_append, List.length_nil] at enough
      have readLeft : operand (operation bound) (ts ++ c :: (ts' ++ r :: rest)) =
          .ok left (c :: (ts' ++ r :: rest)) :=
        operand_complete spelt fun isOperation => ih isOperation (by omega) _
      have readRight : operand (operation bound) (ts' ++ r :: rest) = .ok right (r :: rest) :=
        operand_complete spelt' fun isOperation => ih' isOperation (by omega) _
      simp only [List.cons_append, List.append_assoc, List.nil_append, operation, bind_eq_ok]
      refine ⟨_, _, operator_complete kind _, _, _, expectSign_complete isLparen _, _, _,
        readLeft, ?_⟩
      simp only [bind_eq_ok]
      exact ⟨_, _, expectSign_complete isComma _, _, _, readRight, _, _,
        expectSign_complete isRparen _, rfl⟩

theorem functionName_complete {t : Token} (kind : t.kind = .funName) (rest : List Token) :
    functionName (t :: rest) = .ok (.ofToken t) rest :=
  functionName_eq_ok.2 ⟨t, rfl, kind, rfl⟩

theorem variableName_complete {t : Token} (kind : t.kind = .varName) (rest : List Token) :
    variableName (t :: rest) = .ok (.ofToken t) rest :=
  variableName_eq_ok.2 ⟨t, rfl, kind, rfl⟩

/-- A call is read from the tokens that spell it. -/
theorem call_complete {c : Call} {ts : List Token} (spelt : c.SpeltBy ts) (rest : List Token) :
    call (ts ++ rest) = .ok c rest := by
  cases spelt with
  | intro kind isLparen spelt isComma spelt' isComma' spelt'' isRparen =>
    simp only [List.cons_append, List.append_assoc, List.nil_append, call, bind_eq_ok]
    exact ⟨_, _, functionName_complete kind _, _, _, expectSign_complete isLparen _, _, _,
      atom_complete spelt _, _, _, expectSign_complete isComma _, _, _, atom_complete spelt' _, _, _,
      expectSign_complete isComma' _, _, _, atom_complete spelt'' _, _, _,
      expectSign_complete isRparen _, rfl⟩

/-- The first two tokens tell what kind of term follows. -/
theorem term_complete {value : Term} {ts : List Token} (spelt : value.SpeltBy ts) {bound : Nat}
    (enough : ts.length ≤ bound) (rest : List Token) : term bound (ts ++ rest) = .ok value rest := by
  -- the first token tells calls, operations and atoms apart
  rw [term, peek_bind_eq]
  cases spelt with
  | @call c _ spelt =>
    have read : (Term.call <$> call) (ts ++ rest) = .ok (.call c) rest :=
      map_eq_ok.2 ⟨_, call_complete spelt rest, rfl⟩
    cases spelt with
    | intro kind _ _ _ _ _ _ _ => simpa only [List.cons_append, nextKind_cons, kind] using read
  | @expr e _ spelt =>
    by_cases isOperation : e.IsOperation
    · have read : (Term.expr <$> operation bound) (ts ++ rest) = .ok (.expr e) rest :=
        map_eq_ok.2 ⟨_, operation_complete spelt isOperation enough rest, rfl⟩
      rcases exists_operator_of_operation spelt isOperation with ⟨t, more, op, rfl, kind⟩
      simpa only [List.cons_append, nextKind_cons, kind] using read
    · cases spelt with
      | @atom a _ spelt =>
        have read : (Term.expr <$> Expr.atom <$> atom) (ts ++ rest) = .ok (.expr (.atom a)) rest :=
          map_eq_ok.2 ⟨_, map_eq_ok.2 ⟨_, atom_complete spelt rest, rfl⟩, rfl⟩
        rcases exists_token_of_atom spelt with ⟨t, rfl, kind | kind | kind⟩
        · simpa only [List.cons_append, nextKind_cons, kind] using read
        · simpa only [List.cons_append, nextKind_cons, kind] using read
        · simpa only [List.cons_append, nextKind_cons, kind] using read
      | unary _ _ _ _ => exact absurd trivial isOperation
      | binary _ _ _ _ _ _ => exact absurd trivial isOperation

/-! ## Commands -/

/-- The first token tells the command. -/
theorem simpleCommand_complete {command : SimpleCommand} {ts : List Token}
    (spelt : command.SpeltBy ts) {bound : Nat} (enough : ts.length ≤ bound) (rest : List Token) :
    simpleCommand bound (ts ++ rest) = .ok command rest := by
  rw [simpleCommand, peek_bind_eq]
  cases spelt with
  | @skip t isWord =>
    have kind : t.kind = .keyword .skipWord := isWord
    simp only [List.cons_append, List.nil_append, nextKind_cons, kind]
    exact map_eq_ok.2 ⟨_, expectWord_complete isWord _, rfl⟩
  | @halt t isWord =>
    have kind : t.kind = .keyword .haltWord := isWord
    simp only [List.cons_append, List.nil_append, nextKind_cons, kind]
    exact map_eq_ok.2 ⟨_, expectWord_complete isWord _, rfl⟩
  | @print t value ts isWord spelt =>
    have kind : t.kind = .keyword .printWord := isWord
    simp only [List.cons_append, nextKind_cons, kind]
    exact seq_eq_ok.2 ⟨_, _, _, map_eq_ok.2 ⟨_, expectWord_complete isWord _, rfl⟩,
      atom_complete spelt rest, rfl⟩
  | @giveBack t value ts isWord spelt =>
    have kind : t.kind = .keyword .returnWord := isWord
    simp only [List.cons_append, nextKind_cons, kind]
    exact seq_eq_ok.2 ⟨_, _, _, map_eq_ok.2 ⟨_, expectWord_complete isWord _, rfl⟩,
      atom_complete spelt rest, rfl⟩
  | @read t less keyword kind isLess isInput =>
    have next : less.kind = .punctuation .less := isLess
    simp only [List.cons_append, List.nil_append, nextKind_cons, kind]
    refine bind_eq_ok.2 ⟨_, _, variableName_complete kind _, ?_⟩
    rw [assignment, peek_bind_eq]
    simp only [nextKind_cons, next, bind_eq_ok]
    exact ⟨_, _, expectSign_complete isLess _, _, _, expectWord_complete isInput _, rfl⟩
  | @assign t equals value ts kind isAssign spelt =>
    have next : equals.kind = .punctuation .assign := isAssign
    simp only [List.length_cons] at enough
    simp only [List.cons_append, nextKind_cons, kind]
    refine bind_eq_ok.2 ⟨_, _, variableName_complete kind _, ?_⟩
    rw [assignment, peek_bind_eq]
    simp only [nextKind_cons, next, bind_eq_ok]
    exact ⟨_, _, expectSign_complete isAssign _, _, _, term_complete spelt (by omega) rest, rfl⟩
  | @call c _ spelt =>
    -- a call is read whole, with the name that announces it
    have read : (SimpleCommand.call <$> call) (ts ++ rest) = .ok (.call c) rest :=
      map_eq_ok.2 ⟨_, call_complete spelt rest, rfl⟩
    cases spelt with
    | intro kind _ _ _ _ _ _ _ => simpa only [List.cons_append, nextKind_cons, kind] using read

/-- A command without blocks is announced by its first token. -/
theorem exists_token_of_simple {command : SimpleCommand} {ts : List Token}
    (spelt : command.SpeltBy ts) : ∃ t more, ts = t :: more ∧ startsSimple t.kind = true := by
  cases spelt with
  | @skip t isWord => exact ⟨_, _, rfl, by rw [show t.kind = _ from isWord]; rfl⟩
  | @halt t isWord => exact ⟨_, _, rfl, by rw [show t.kind = _ from isWord]; rfl⟩
  | @print t _ _ isWord _ => exact ⟨_, _, rfl, by rw [show t.kind = _ from isWord]; rfl⟩
  | @giveBack t _ _ isWord _ => exact ⟨_, _, rfl, by rw [show t.kind = _ from isWord]; rfl⟩
  | read kind _ _ => exact ⟨_, _, rfl, by rw [kind]; rfl⟩
  | assign kind _ _ => exact ⟨_, _, rfl, by rw [kind]; rfl⟩
  | call spelt =>
    cases spelt with
    | intro kind _ _ _ _ _ _ _ => exact ⟨_, _, rfl, by rw [kind]; rfl⟩

/-- No tokens spell no commands only. -/
theorem eq_nil_of_spelt {cs : Commands} {ts : List Token} (spelt : cs.SpeltBy ts)
    (empty : ts = []) : cs = .nil := by
  cases spelt with
  | nil => rfl
  | simple spelt _ _ =>
    rcases exists_token_of_simple spelt with ⟨t, more, rfl, _⟩
    simp at empty
  | ifThen _ _ _ _ _ _ _ _ _ => simp at empty
  | ifThenElse _ _ _ _ _ _ _ _ _ _ _ _ _ => simp at empty

/-- The word that closes a block comes next. -/
def Closes (rest : List Token) : Prop :=
  nextKind rest = some (.keyword .endWord)

/-- Commands that are closed at once are none. -/
theorem noCommands_complete {rest : List Token} (closes : Closes rest) (expected : Expected) :
    noCommands expected rest = .ok .nil rest := by
  rw [noCommands, peek_bind_eq]
  simp only [show nextKind rest = _ from closes, if_true]
  rfl

/-- Behind a separator the other commands are read, if there are any. -/
theorem moreCommands_complete {commands : Parser Commands} {cs : Commands}
    {separator behind rest : List Token} (separates : Separates separator behind)
    (spelt : cs.SpeltBy behind) (closes : Closes rest)
    (complete : commands (behind ++ rest) = .ok cs rest) :
    moreCommands commands (separator ++ (behind ++ rest)) = .ok cs rest := by
  rw [moreCommands]
  rcases separates with ⟨rfl, rfl⟩ | ⟨t, isSemicolon, rfl⟩
  · -- without a separator nothing follows in the block
    cases eq_nil_of_spelt spelt rfl
    have readNone : skipSign .semicolon rest = .ok false rest := by
      rw [skipSign, peek_bind_eq]
      simp only [show nextKind rest = _ from closes]
      rfl
    exact bind_eq_ok.2 ⟨false, rest, readNone, noCommands_complete closes _⟩
  · have readSign : skipSign .semicolon (t :: (behind ++ rest)) = .ok true (behind ++ rest) := by
      rw [skipSign, peek_bind_eq]
      simp only [nextKind_cons, show t.kind = _ from isSemicolon, if_true]
      exact bind_eq_ok.2 ⟨_, _, expectSign_complete isSemicolon _, rfl⟩
    exact bind_eq_ok.2 ⟨true, behind ++ rest, readSign, complete⟩

/-- Behind a command comes a separator or the end of its block, so never an alternative. -/
theorem nextKind_ne_else {separator behind rest : List Token} (separates : Separates separator behind)
    (closes : Closes rest) :
    nextKind (separator ++ (behind ++ rest)) ≠ some (.keyword .elseWord) := by
  rcases separates with ⟨rfl, rfl⟩ | ⟨t, isSemicolon, rfl⟩
  · rw [List.nil_append, List.nil_append, show nextKind rest = _ from closes]
    decide
  · rw [List.cons_append, nextKind_cons, show t.kind = _ from isSemicolon]
    decide

/-- A block is read if its commands are, up to the closing word. -/
theorem block_complete {commands : Parser Commands} {cs : Commands} {opening closing : Token}
    {ts rest : List Token} (isOpening : opening.IsWord .beginWord)
    (isClosing : closing.IsWord .endWord)
    (complete : commands (ts ++ closing :: rest) = .ok cs (closing :: rest)) :
    block commands (opening :: (ts ++ closing :: rest)) = .ok ⟨⟨opening, closing⟩, cs⟩ rest := by
  simp only [block, bind_eq_ok]
  exact ⟨_, _, expectWord_complete isOpening _, _, _, complete, _, _,
    expectWord_complete isClosing _, rfl⟩

theorem closes_cons {t : Token} (isClosing : t.IsWord .endWord) (rest : List Token) :
    Closes (t :: rest) :=
  congrArg some isClosing

/-- A first token that starts a simple command decides for one. -/
theorem commands_of_starts {t : Token} (starts : startsSimple t.kind = true) (bound : Nat)
    (more : List Token) :
    commands (bound + 1) (t :: more) = (do
      let command ← simpleCommand bound
      let rest ← moreCommands (commands bound)
      return Commands.simple command .unknown rest : Parser Commands) (t :: more) := by
  rw [commands, peek_bind_eq, nextKind_cons]
  cases kind : t.kind with
  | keyword word =>
    rw [kind] at starts
    cases word with
    | ifWord => cases starts
    | _ => simp only [starts, if_true]
  | _ =>
    rw [kind] at starts
    simp only [starts, if_true]

/-- Commands are read up to what closes them, with all blocks inside them. -/
theorem commands_complete {cs : Commands} {ts : List Token} (spelt : cs.SpeltBy ts) {bound : Nat}
    (enough : ts.length < bound) {rest : List Token} (closes : Closes rest) :
    commands bound (ts ++ rest) = .ok cs rest := by
  -- blocks and the commands behind the separator are trees of their own, with fewer tokens
  induction spelt generalizing bound rest with
  | nil =>
    cases bound with
    | zero => simp at enough
    | succ bound =>
      rw [commands, List.nil_append, peek_bind_eq]
      simp only [show nextKind rest = _ from closes]
      exact noCommands_complete closes _
  | @simple command cs ts separator behind spelt separates speltRest ih =>
    cases bound with
    | zero => simp at enough
    | succ bound =>
      simp only [List.length_append] at enough
      have read : simpleCommand bound (ts ++ (separator ++ (behind ++ rest))) =
          .ok command (separator ++ (behind ++ rest)) :=
        simpleCommand_complete spelt (by omega) _
      rcases exists_token_of_simple spelt with ⟨t, more, rfl, starts⟩
      simp only [List.length_cons] at enough
      have readRest : commands bound (behind ++ rest) = .ok cs rest := ih (by omega) closes
      simp only [List.cons_append, List.append_assoc] at read ⊢
      rw [commands_of_starts starts]
      simp only [bind_eq_ok]
      exact ⟨_, _, read, _, _, moreCommands_complete separates speltRest closes readRest, rfl⟩
  | @ifThen keyword thenWord opening closing condition body cs ts bodyTokens separator behind
      isKeyword isOperation speltCondition isThen isOpening speltBody isClosing separates speltRest
      ihBody ih =>
    cases bound with
    | zero => simp at enough
    | succ bound =>
      simp only [List.length_cons, List.length_append] at enough
      have shorter : bodyTokens.length < bound := by omega
      have readBody := block_complete isOpening isClosing
        (ihBody shorter (closes_cons isClosing (separator ++ (behind ++ rest))))
      have readRest : commands bound (behind ++ rest) = .ok cs rest := ih (by omega) closes
      rw [commands]
      simp only [List.cons_append, List.append_assoc, peek_bind_eq, nextKind_cons,
        show keyword.kind = _ from isKeyword, bind_eq_ok]
      refine ⟨_, _, expectWord_complete isKeyword _, _, _,
        operation_complete speltCondition isOperation (by omega) _, _, _,
        expectWord_complete isThen _, _, _, readBody, ?_⟩
      rw [if_neg (nextKind_ne_else separates closes)]
      exact bind_eq_ok.2 ⟨_, _, moreCommands_complete separates speltRest closes readRest, rfl⟩
  | @ifThenElse keyword thenWord opening closing elseWord elseOpening elseClosing condition thenBody
      elseBody cs ts thenTokens elseTokens separator behind isKeyword isOperation speltCondition
      isThen isOpening speltThen isClosing isElse isElseOpening speltElse isElseClosing separates
      speltRest ihThen ihElse ih =>
    cases bound with
    | zero => simp at enough
    | succ bound =>
      simp only [List.length_cons, List.length_append] at enough
      have thenShorter : thenTokens.length < bound := by omega
      have elseShorter : elseTokens.length < bound := by omega
      have readThen := block_complete isOpening isClosing (ihThen thenShorter (closes_cons isClosing
        (elseWord :: elseOpening :: (elseTokens ++ elseClosing :: (separator ++ (behind ++ rest))))))
      have readElse := block_complete isElseOpening isElseClosing
        (ihElse elseShorter (closes_cons isElseClosing (separator ++ (behind ++ rest))))
      have readRest : commands bound (behind ++ rest) = .ok cs rest := ih (by omega) closes
      rw [commands]
      simp only [List.cons_append, List.append_assoc, peek_bind_eq, nextKind_cons,
        show keyword.kind = _ from isKeyword, bind_eq_ok]
      refine ⟨_, _, expectWord_complete isKeyword _, _, _,
        operation_complete speltCondition isOperation (by omega) _, _, _,
        expectWord_complete isThen _, _, _, readThen, ?_⟩
      rw [nextKind_cons, if_pos (congrArg some isElse)]
      simp only [bind_eq_ok]
      exact ⟨_, _, expectWord_complete isElse _, _, _, readElse, _, _,
        moreCommands_complete separates speltRest closes readRest, rfl⟩

/-! ## Declarations -/

/-- A declaration is read from the tokens that spell it. -/
theorem varDecl_complete {decl : VarDecl} {ts : List Token} (spelt : decl.SpeltBy ts)
    (expected : Expected) (rest : List Token) : varDecl expected (ts ++ rest) = .ok decl rest := by
  cases spelt with
  | intro found kind =>
    simp only [List.cons_append, List.nil_append, varDecl, bind_eq_ok]
    exact ⟨_, _, one_eq_ok.2 ⟨_, rfl, by rw [found]; rfl⟩, _, _, variableName_complete kind _, rfl⟩

/-- A declaration starts with the word for a type. -/
theorem exists_type_of_varDecl {decl : VarDecl} {ts : List Token} (spelt : decl.SpeltBy ts) :
    ∃ t more, ts = t :: more ∧ (ValueType.ofKind? t.kind).isSome = true := by
  cases spelt with
  | intro found _ => exact ⟨_, _, rfl, by rw [found]; rfl⟩

/-- Global variables are read up to the word that opens the main block. -/
theorem globals_complete {decls : List VarDecl} {ts : List Token} (spelt : GlobalsSpeltBy decls ts)
    {bound : Nat} (enough : ts.length ≤ bound) {rest : List Token}
    (opens : nextKind rest = some (.keyword .beginWord)) :
    globals bound (ts ++ rest) = .ok decls rest := by
  induction spelt generalizing bound with
  | nil =>
    cases bound with
    | zero => rfl
    | succ bound =>
      rw [globals, List.nil_append, peek_bind_eq, opens]
      rfl
  | @last decl ts spelt =>
    rcases exists_type_of_varDecl spelt with ⟨t, more, rfl, isType⟩
    cases bound with
    | zero => simp at enough
    | succ bound =>
      -- no comma is skipped, as the main block opens next
      have readNone : skipSign .comma rest = .ok false rest := by
        rw [skipSign, peek_bind_eq, opens]
        rfl
      rw [globals, peek_bind_eq, List.cons_append, nextKind_cons, Option.bind_some, if_pos isType]
      simp only [bind_eq_ok]
      exact ⟨_, _, varDecl_complete spelt _ rest, _, _, readNone, rfl⟩
  | @more decl c decls ts ts' spelt isComma _ ih =>
    rcases exists_type_of_varDecl spelt with ⟨t, more, rfl, isType⟩
    cases bound with
    | zero => simp at enough
    | succ bound =>
      -- the declaration and its comma are read, so the others fit into the smaller bound
      simp only [List.length_append, List.length_cons] at enough
      have readComma : skipSign .comma (c :: (ts' ++ rest)) = .ok true (ts' ++ rest) := by
        rw [skipSign, peek_bind_eq, nextKind_cons, if_pos (congrArg some isComma)]
        exact bind_eq_ok.2 ⟨_, _, expectSign_complete isComma _, rfl⟩
      rw [globals, peek_bind_eq, List.append_assoc, List.cons_append, nextKind_cons,
        Option.bind_some, if_pos isType]
      simp only [bind_eq_ok]
      refine ⟨_, _, varDecl_complete spelt _ _, _, _, readComma, ?_⟩
      exact bind_eq_ok.2 ⟨_, _, ih (by omega), rfl⟩

/-- All of a function but its closing word is read from the tokens of its head. -/
theorem functionHead_complete {f : FunctionDecl} {ts : List Token} (spelt : f.HeadSpeltBy ts)
    {bound : Nat} (enough : ts.length ≤ bound) (rest : List Token) :
    ∃ head, functionHead bound (ts ++ rest) = .ok head rest ∧ head f.closing = f := by
  cases spelt with
  | intro found nameKind isLparen paramKind isComma paramKind' isComma' paramKind'' isRparen isLbrace
      spelt isLocalComma spelt' isLocalComma' spelt'' isLocalComma'' speltBody isRbrace =>
    cases speltBody with
    | @intro opening closing cs ts isOpening speltCommands isClosing =>
    simp only [List.length_cons, List.length_append] at enough
    have shorter : ts.length < bound := by omega
    refine ⟨_, ?_, rfl⟩
    simp only [List.cons_append, List.append_assoc, List.nil_append, functionHead, bind_eq_ok]
    exact ⟨_, _, one_eq_ok.2 ⟨_, rfl, by rw [found]; rfl⟩, _, _, functionName_complete nameKind _,
      _, _, expectSign_complete isLparen _, _, _, variableName_complete paramKind _,
      _, _, expectSign_complete isComma _, _, _, variableName_complete paramKind' _,
      _, _, expectSign_complete isComma' _, _, _, variableName_complete paramKind'' _,
      _, _, expectSign_complete isRparen _, _, _, expectSign_complete isLbrace _,
      _, _, varDecl_complete spelt _ _, _, _, expectSign_complete isLocalComma _,
      _, _, varDecl_complete spelt' _ _, _, _, expectSign_complete isLocalComma' _,
      _, _, varDecl_complete spelt'' _ _, _, _, expectSign_complete isLocalComma'' _,
      _, _, block_complete isOpening isClosing
        (commands_complete speltCommands shorter (closes_cons isClosing _)),
      _, _, expectSign_complete isRbrace _, rfl⟩

/-- A function starts with what it returns. -/
theorem exists_type_of_head {f : FunctionDecl} {ts : List Token} (spelt : f.HeadSpeltBy ts) :
    ∃ t more, ts = t :: more ∧ (ReturnType.ofKind? t.kind).isSome = true := by
  cases spelt with
  | intro found => exact ⟨_, _, rfl, by rw [found]; rfl⟩

/-- Functions are read as long as types follow. -/
theorem functions_complete {forest : Forest FunctionDecl} {ts : List Token}
    (spelt : FunctionsSpeltBy forest ts) {bound : Nat} (enough : ts.length ≤ bound)
    {rest : List Token} (stops : (nextKind rest).bind ReturnType.ofKind? = none) :
    functions bound (ts ++ rest) = .ok forest rest := by
  induction spelt generalizing bound rest with
  | nil =>
    cases bound with
    | zero => rfl
    | succ bound =>
      rw [functions, List.nil_append, peek_bind_eq, stops]
      rfl
  | @cons f inner more head ts ts' speltHead _ isClosing _ ihInner ihMore =>
    cases bound with
    | zero =>
      rcases exists_type_of_head speltHead with ⟨t, more, rfl, _⟩
      simp at enough
    | succ bound =>
      rcases exists_type_of_head speltHead with ⟨t, headRest, rfl, isType⟩
      simp only [List.length_append, List.length_cons] at enough
      have headShorter : (t :: headRest).length ≤ bound := by
        rw [List.length_cons]
        omega
      rcases functionHead_complete speltHead headShorter (ts ++ f.closing :: (ts' ++ rest)) with
        ⟨build, readHead, builds⟩
      -- the closing word is no type, so the inner functions end in front of it
      have atClosing : (nextKind (f.closing :: (ts' ++ rest))).bind ReturnType.ofKind? = none := by
        rw [nextKind_cons, show f.closing.kind = _ from isClosing]
        rfl
      simp only [List.cons_append, List.append_assoc] at readHead ⊢
      rw [functions, peek_bind_eq, nextKind_cons, Option.bind_some, if_pos isType]
      simp only [bind_eq_ok]
      refine ⟨_, _, readHead, _, _, ihInner (by omega) atClosing, _, _,
        expectWord_complete isClosing _, _, _, ihMore (by omega) stops, ?_⟩
      rw [builds]
      rfl

/-- The tokens of a program are read as this program, whatever the text they are from. -/
theorem program_complete {p : Program} {ts : List Token} (spelt : p.SpeltBy ts)
    (source : SourceText) {bound : Nat} (enough : ts.length ≤ bound) :
    program source bound ts = .ok { p with source := source } [] := by
  cases spelt with
  | @intro main decls b forest _ globalTokens _ functionTokens isMain speltGlobals speltBlock
      speltFunctions =>
    cases speltBlock with
    | @intro opening closing cs ts isOpening speltCommands isClosing =>
    simp only [List.length_cons, List.length_append] at enough
    have shorter : ts.length < bound := by omega
    have globalsFit : globalTokens.length ≤ bound := by omega
    have functionsFit : functionTokens.length ≤ bound := by omega
    have readFunctions : functions bound functionTokens = .ok forest [] := by
      simpa only [List.append_nil] using functions_complete speltFunctions functionsFit
        (show (nextKind []).bind ReturnType.ofKind? = none from rfl)
    have readEnd : endOfInput [] = .ok () [] := rfl
    simp only [List.cons_append, List.append_assoc, List.nil_append, program, bind_eq_ok]
    exact ⟨_, _, expectWord_complete isMain _,
      _, _, globals_complete speltGlobals globalsFit (congrArg some isOpening),
      _, _, block_complete isOpening isClosing
        (commands_complete speltCommands shorter (closes_cons isClosing _)),
      _, _, readFunctions, _, _, readEnd, rfl⟩

end Parser

/-- Tokens that spell a program are parsed to it. -/
theorem parse_of_spelt {tokens : List Token} {p : Program} (spelt : p.SpeltBy (significant tokens)) :
    parse tokens = .ok { p with source := ⟨tokens⟩ } := by
  have read := Parser.program_complete spelt ⟨tokens⟩ (Nat.le_succ (significant tokens).length)
  simp only [parse, Nat.add_one, read]

end SplBasic
