import SplBasic.Proofs.Productions

/-!
# Every sentence has a tree

`phrases s` holds the token lists that spell a tree for the grammar symbol `s`. These languages are
closed under all productions, so they contain every derivable list of kinds, whatever tokens of
those kinds it is written with:

* `exists_speltBy_of_mem_language` : tokens whose kinds are a sentence spell a program.
-/

namespace SplBasic

open ContextFreeGrammar

/-! ## Phrases -/

def oneToken (accept : Token → Prop) : Language Token :=
  {ts | ∃ t, accept t ∧ ts = [t]}

def tokensOf (kind : TokenKind) : Language Token :=
  oneToken fun t => t.kind = kind

def varDeclPhrases : Language Token :=
  {ts | ∃ decl : VarDecl, decl.SpeltBy ts}

def blockPhrases : Language Token :=
  {ts | ∃ block : Block, block.SpeltBy ts}

/-- The tokens of a command, whatever commands follow it. -/
def commandPhrases : Language Token :=
  {ts | ∀ ⦃rest : Commands⦄ ⦃separator behind : List Token⦄, Separates separator behind →
    rest.SpeltBy behind → ∃ cs : Commands, cs.SpeltBy (ts ++ (separator ++ behind))}

def operationPhrases : Language Token :=
  {ts | ∃ e : Expr, e.IsOperation ∧ e.SpeltBy ts}

def functionsPhrases : Language Token :=
  {ts | ∃ forest, FunctionsSpeltBy forest ts}

/-- The tokens of a function, whatever functions follow it. -/
def functionPhrases : Language Token :=
  {ts | ∀ ⦃rest ts'⦄, FunctionsSpeltBy rest ts' → ∃ forest, FunctionsSpeltBy forest (ts ++ ts')}

def localDeclPhrases : Language Token :=
  varDeclPhrases * tokensOf (.punctuation .comma)

def localPhrases : Language Token :=
  localDeclPhrases * localDeclPhrases * localDeclPhrases

/-- The token lists that have a tree for a grammar symbol. A function has one tree for its header
and its body, so these two are described by their parts. -/
def phrases : GrammarSymbol → Language Token
  | .program => {ts | ∃ p : Program, p.SpeltBy ts}
  | .globals => {ts | ∃ decls, GlobalsSpeltBy decls ts}
  | .block => blockPhrases
  | .commands => {ts | ∃ cs : Commands, cs.SpeltBy ts}
  | .command => commandPhrases
  | .branch => commandPhrases
  | .assign => {ts | ∃ command : SimpleCommand, command.SpeltBy ts}
  | .call => {ts | ∃ call : Call, call.SpeltBy ts}
  | .term => {ts | ∃ term : Term, term.SpeltBy ts}
  | .operation => operationPhrases
  | .condition => operationPhrases
  | .operand => {ts | ∃ e : Expr, e.SpeltBy ts}
  | .atom => {ts | ∃ a : Atom, a.SpeltBy ts}
  | .constant => {ts | ∃ a : Atom, a.SpeltBy ts}
  | .functions => functionsPhrases
  | .function => functionPhrases
  | .header =>
    (oneToken fun t => (ReturnType.ofKind? t.kind).isSome) * tokensOf .funName
      * tokensOf (.punctuation .lparen) * tokensOf .varName * tokensOf (.punctuation .comma)
      * tokensOf .varName * tokensOf (.punctuation .comma) * tokensOf .varName
      * tokensOf (.punctuation .rparen)
  | .body =>
    tokensOf (.punctuation .lbrace) * localPhrases * blockPhrases
      * tokensOf (.punctuation .rbrace) * functionsPhrases * tokensOf (.keyword .endWord)
  | .locals => localPhrases

def productionPhrases (u : Production) : Language Token :=
  meaning tokensOf phrases u

@[simp] theorem productionPhrases_append (u v : Production) :
    productionPhrases (u ++ v) = productionPhrases u * productionPhrases v :=
  meaning_append u v

@[simp] theorem productionPhrases_token (kind : TokenKind) :
    productionPhrases (.token kind) = tokensOf kind :=
  meaning_terminal kind

@[simp] theorem productionPhrases_word (k : Keyword) :
    productionPhrases (.word k) = tokensOf (.keyword k) :=
  productionPhrases_token _

@[simp] theorem productionPhrases_sign (s : Punctuation) :
    productionPhrases (.sign s) = tokensOf (.punctuation s) :=
  productionPhrases_token _

@[simp] theorem productionPhrases_part (s : GrammarSymbol) :
    productionPhrases (.part s) = phrases s :=
  meaning_nonterminal s

/-! ## Expressions -/

/-- Literals are constants. -/
theorem constant_closed {u : Production} (isProduction : u ∈ productions .constant) :
    productionPhrases u ≤ phrases .constant := by
  simp only [productions, List.mem_cons, List.not_mem_nil, or_false] at isProduction
  rcases isProduction with rfl | rfl
  · simp only [productionPhrases_token]
    rintro _ ⟨t, kind, rfl⟩
    exact ⟨_, .number kind⟩
  · simp only [productionPhrases_token]
    rintro _ ⟨t, kind, rfl⟩
    exact ⟨_, .text kind⟩

/-- Names and constants are atoms. -/
theorem atom_closed {u : Production} (isProduction : u ∈ productions .atom) :
    productionPhrases u ≤ phrases .atom := by
  simp only [productions, List.mem_cons, List.not_mem_nil, or_false] at isProduction
  rcases isProduction with rfl | rfl
  · simp only [productionPhrases_token]
    rintro _ ⟨t, kind, rfl⟩
    exact ⟨_, .variable kind⟩
  · rw [productionPhrases_part]
    exact le_rfl

/-- Atoms and operations are operands. -/
theorem operand_closed {u : Production} (isProduction : u ∈ productions .operand) :
    productionPhrases u ≤ phrases .operand := by
  simp only [productions, List.mem_cons, List.not_mem_nil, or_false] at isProduction
  rcases isProduction with rfl | rfl
  · rw [productionPhrases_part]
    rintro ts ⟨a, spelt⟩
    exact ⟨_, .atom spelt⟩
  · rw [productionPhrases_part]
    rintro ts ⟨e, _, spelt⟩
    exact ⟨e, spelt⟩

/-- Each operator, with its operands in brackets, is an operation. -/
theorem operations_closed {u : Production} (isProduction : u ∈ Production.operations) :
    productionPhrases u ≤ operationPhrases := by
  rcases List.mem_map.1 isProduction with ⟨op, _, rfl⟩
  cases op with
  | unary op =>
    simp only [Production.operands, productionPhrases_append, productionPhrases_token,
      productionPhrases_sign, productionPhrases_part]
    rintro _ ⟨_, ⟨_, ⟨_, ⟨t, kind, rfl⟩, _, ⟨l, isLparen, rfl⟩, rfl⟩, ts, ⟨e, spelt⟩, rfl⟩, _,
      ⟨r, isRparen, rfl⟩, rfl⟩
    have tree := Expr.SpeltBy.unary kind isLparen spelt isRparen
    exact ⟨.unary op t e .unknown, trivial, by simpa using tree⟩
  | binary op =>
    simp only [Production.operands, productionPhrases_append, productionPhrases_token,
      productionPhrases_sign, productionPhrases_part]
    rintro _ ⟨_, ⟨_, ⟨_, ⟨t, kind, rfl⟩, _, ⟨l, isLparen, rfl⟩, rfl⟩, _, ⟨_, ⟨ts, ⟨left, spelt⟩, _,
      ⟨c, isComma, rfl⟩, rfl⟩, ts', ⟨right, spelt'⟩, rfl⟩, rfl⟩, _, ⟨r, isRparen, rfl⟩, rfl⟩
    have tree := Expr.SpeltBy.binary kind isLparen spelt isComma spelt' isRparen
    exact ⟨.binary op t left right .unknown, trivial, by simpa using tree⟩

/-- A name with three atoms in brackets is a call. -/
theorem call_closed {u : Production} (isProduction : u ∈ productions .call) :
    productionPhrases u ≤ phrases .call := by
  simp only [productions, List.mem_singleton] at isProduction
  subst isProduction
  simp only [productionPhrases_append, productionPhrases_token, productionPhrases_sign,
    productionPhrases_part, mul_assoc]
  rintro _ ⟨_, ⟨t, kind, rfl⟩, _, ⟨_, ⟨l, isLparen, rfl⟩, _, ⟨ts, ⟨first, spelt⟩, _,
    ⟨_, ⟨c, isComma, rfl⟩, _, ⟨ts', ⟨second, spelt'⟩, _, ⟨_, ⟨d, isComma', rfl⟩, _,
    ⟨ts'', ⟨third, spelt''⟩, _, ⟨r, isRparen, rfl⟩, rfl⟩, rfl⟩, rfl⟩, rfl⟩, rfl⟩, rfl⟩, rfl⟩
  exact ⟨_, .intro kind isLparen spelt isComma spelt' isComma' spelt'' isRparen⟩

/-- Atoms, calls and operations are terms. -/
theorem term_closed {u : Production} (isProduction : u ∈ productions .term) :
    productionPhrases u ≤ phrases .term := by
  simp only [productions, List.mem_cons, List.not_mem_nil, or_false] at isProduction
  rcases isProduction with rfl | rfl | rfl | rfl
  · rw [productionPhrases_part]
    rintro ts ⟨a, spelt⟩
    exact ⟨_, .expr (.atom spelt)⟩
  · rw [productionPhrases_token]
    rintro _ ⟨t, kind, rfl⟩
    exact ⟨_, .expr (.atom (.variable kind))⟩
  · rw [productionPhrases_part]
    rintro ts ⟨call, spelt⟩
    exact ⟨_, .call spelt⟩
  · rw [productionPhrases_part]
    rintro ts ⟨e, _, spelt⟩
    exact ⟨_, .expr spelt⟩

/-! ## Commands -/

/-- Both alternatives of an assignment are assignments. -/
theorem assign_closed {u : Production} (isProduction : u ∈ productions .assign) :
    productionPhrases u ≤ phrases .assign := by
  simp only [productions, List.mem_cons, List.not_mem_nil, or_false] at isProduction
  rcases isProduction with rfl | rfl
  · simp only [productionPhrases_append, productionPhrases_token, productionPhrases_sign,
      productionPhrases_word, mul_assoc]
    rintro _ ⟨_, ⟨t, kind, rfl⟩, _, ⟨_, ⟨less, isLess, rfl⟩, _, ⟨keyword, isInput, rfl⟩, rfl⟩, rfl⟩
    exact ⟨_, .read kind isLess isInput⟩
  · simp only [productionPhrases_append, productionPhrases_token, productionPhrases_sign,
      productionPhrases_part, mul_assoc]
    rintro _ ⟨_, ⟨t, kind, rfl⟩, _, ⟨_, ⟨equals, isAssign, rfl⟩, ts, ⟨value, spelt⟩, rfl⟩, rfl⟩
    exact ⟨_, .assign kind isAssign spelt⟩

/-- A command without blocks is a command. -/
theorem mem_commandPhrases_of_simple {command : SimpleCommand} {ts : List Token}
    (spelt : command.SpeltBy ts) : ts ∈ commandPhrases := by
  intro rest separator behind separates speltRest
  exact ⟨_, .simple spelt separates speltRest⟩

/-- Each alternative for a command is a command; the ones with blocks are conditionals. -/
theorem command_closed {u : Production} (isProduction : u ∈ productions .command) :
    productionPhrases u ≤ commandPhrases := by
  simp only [productions, List.mem_cons, List.not_mem_nil, or_false] at isProduction
  -- in the order of the productions: skip, halt, print, return, assignment, call, branch
  rcases isProduction with rfl | rfl | rfl | rfl | rfl | rfl | rfl
  · rw [productionPhrases_word]
    rintro _ ⟨t, isSkip, rfl⟩
    exact mem_commandPhrases_of_simple (.skip isSkip)
  · rw [productionPhrases_word]
    rintro _ ⟨t, isHalt, rfl⟩
    exact mem_commandPhrases_of_simple (.halt isHalt)
  · simp only [productionPhrases_append, productionPhrases_word, productionPhrases_part]
    rintro _ ⟨_, ⟨t, isPrint, rfl⟩, ts, ⟨value, spelt⟩, rfl⟩
    exact mem_commandPhrases_of_simple (.print isPrint spelt)
  · simp only [productionPhrases_append, productionPhrases_word, productionPhrases_part]
    rintro _ ⟨_, ⟨t, isReturn, rfl⟩, ts, ⟨value, spelt⟩, rfl⟩
    exact mem_commandPhrases_of_simple (.giveBack isReturn spelt)
  · rw [productionPhrases_part]
    rintro ts ⟨command, spelt⟩
    exact mem_commandPhrases_of_simple spelt
  · rw [productionPhrases_part]
    rintro ts ⟨call, spelt⟩
    exact mem_commandPhrases_of_simple (.call spelt)
  · rw [productionPhrases_part]
    exact le_rfl

/-- A conditional may do without its second block. -/
theorem branch_closed {u : Production} (isProduction : u ∈ productions .branch) :
    productionPhrases u ≤ commandPhrases := by
  simp only [productions, List.mem_cons, List.not_mem_nil, or_false] at isProduction
  rcases isProduction with rfl | rfl
  · simp only [productionPhrases_append, productionPhrases_word, productionPhrases_part, mul_assoc]
    rintro _ ⟨_, ⟨keyword, isIf, rfl⟩, _, ⟨ts, ⟨condition, isOperation, spelt⟩, _,
      ⟨_, ⟨thenWord, isThen, rfl⟩, _, ⟨_, ⟨isBegin, speltBody, isEnd⟩⟩, rfl⟩, rfl⟩, rfl⟩
    intro rest separator behind separates speltRest
    have tree := Commands.SpeltBy.ifThen isIf isOperation spelt isThen isBegin speltBody isEnd
      separates speltRest
    exact ⟨_, by simpa using tree⟩
  · simp only [productionPhrases_append, productionPhrases_word, productionPhrases_part, mul_assoc]
    rintro _ ⟨_, ⟨keyword, isIf, rfl⟩, _, ⟨ts, ⟨condition, isOperation, spelt⟩, _,
      ⟨_, ⟨thenWord, isThen, rfl⟩, _, ⟨_, ⟨_, ⟨isBegin, speltBody, isEnd⟩⟩, _,
      ⟨_, ⟨elseWord, isElse, rfl⟩, _, ⟨_, ⟨isElseBegin, speltElse, isElseEnd⟩⟩, rfl⟩, rfl⟩, rfl⟩,
      rfl⟩, rfl⟩
    intro rest separator behind separates speltRest
    have tree := Commands.SpeltBy.ifThenElse isIf isOperation spelt isThen isBegin speltBody isEnd
      isElse isElseBegin speltElse isElseEnd separates speltRest
    exact ⟨_, by simpa using tree⟩

/-- Commands are none, one, or one with a semicolon in front of others. -/
theorem commands_closed {u : Production} (isProduction : u ∈ productions .commands) :
    productionPhrases u ≤ phrases .commands := by
  simp only [productions, List.mem_cons, List.not_mem_nil, or_false] at isProduction
  rcases isProduction with rfl | rfl | rfl
  · rintro _ rfl
    exact ⟨.nil, .nil⟩
  · -- the last command of a block needs no separator
    rw [productionPhrases_part]
    intro ts command
    rcases command (.inl ⟨rfl, rfl⟩) .nil with ⟨cs, spelt⟩
    exact ⟨cs, by simpa using spelt⟩
  · simp only [productionPhrases_append, productionPhrases_sign, productionPhrases_part, mul_assoc]
    rintro _ ⟨ts, command, _, ⟨_, ⟨t, isSemicolon, rfl⟩, behind, ⟨rest, speltRest⟩, rfl⟩, rfl⟩
    exact command (.inr ⟨t, isSemicolon, rfl⟩) speltRest

/-- Commands between their two words are a block. -/
theorem block_closed {u : Production} (isProduction : u ∈ productions .block) :
    productionPhrases u ≤ blockPhrases := by
  simp only [productions, List.mem_singleton] at isProduction
  subst isProduction
  simp only [productionPhrases_append, productionPhrases_word, productionPhrases_part, mul_assoc]
  rintro _ ⟨_, ⟨opening, isBegin, rfl⟩, _, ⟨ts, ⟨commands, spelt⟩, _, ⟨closing, isEnd, rfl⟩, rfl⟩,
    rfl⟩
  exact ⟨_, .intro isBegin spelt isEnd⟩

/-! ## Declarations -/

/-- The words for value types are the ones that the parser takes for types. -/
theorem exists_valueType {type : Production} {ts : List Token}
    (isType : type ∈ Production.valueTypes) (member : ts ∈ productionPhrases type) :
    ∃ t valueType, ValueType.ofKind? t.kind = some valueType ∧ ts = [t] := by
  simp only [Production.valueTypes, List.mem_cons, List.not_mem_nil, or_false] at isType
  rcases isType with rfl | rfl
  · rw [productionPhrases_word] at member
    rcases member with ⟨t, kind, rfl⟩
    exact ⟨t, .num, by rw [kind]; rfl, rfl⟩
  · rw [productionPhrases_word] at member
    rcases member with ⟨t, kind, rfl⟩
    exact ⟨t, .text, by rw [kind]; rfl, rfl⟩

/-- A type and a variable name declare a variable. -/
theorem varDecl_closed {type : Production} (isType : type ∈ Production.valueTypes) :
    productionPhrases (type ++ .token .varName) ≤ varDeclPhrases := by
  rw [productionPhrases_append, productionPhrases_token]
  rintro _ ⟨_, member, _, ⟨t, kind, rfl⟩, rfl⟩
  rcases exists_valueType isType member with ⟨typeToken, valueType, found, rfl⟩
  exact ⟨_, .intro found kind⟩

/-- Global variables are none, one, or one with a comma in front of others. -/
theorem globals_closed {u : Production} (isProduction : u ∈ productions .globals) :
    productionPhrases u ≤ phrases .globals := by
  simp only [productions, List.mem_cons, List.mem_flatMap, List.not_mem_nil,
    or_false] at isProduction
  rcases isProduction with rfl | ⟨type, isType, rfl | rfl⟩
  · rintro _ rfl
    exact ⟨[], .nil⟩
  · intro ts member
    rcases varDecl_closed isType member with ⟨decl, spelt⟩
    exact ⟨_, .last spelt⟩
  · rw [productionPhrases_append, productionPhrases_append, productionPhrases_sign,
      productionPhrases_part, mul_assoc]
    rintro _ ⟨ts, member, _, ⟨_, ⟨c, isComma, rfl⟩, ts', ⟨rest, speltRest⟩, rfl⟩, rfl⟩
    rcases varDecl_closed isType member with ⟨decl, spelt⟩
    exact ⟨_, .more spelt isComma speltRest⟩

/-- A type, a name and a comma declare a local variable. -/
theorem localDecl_closed {type : Production} (isType : type ∈ Production.valueTypes) :
    productionPhrases (.localDecl type) ≤ localDeclPhrases := by
  rw [Production.localDecl, productionPhrases_append, productionPhrases_sign]
  exact mul_le_mul' (varDecl_closed isType) le_rfl

/-- There are three local variables. -/
theorem locals_closed {u : Production} (isProduction : u ∈ productions .locals) :
    productionPhrases u ≤ localPhrases := by
  simp only [productions, List.mem_flatMap, List.mem_map] at isProduction
  rcases isProduction with ⟨first, isFirst, second, isSecond, third, isThird, rfl⟩
  rw [productionPhrases_append, productionPhrases_append]
  exact mul_le_mul' (mul_le_mul' (localDecl_closed isFirst) (localDecl_closed isSecond))
    (localDecl_closed isThird)

/-- A type, a name and three parameters in brackets are a header. -/
theorem header_closed {u : Production} (isProduction : u ∈ productions .header) :
    productionPhrases u ≤ phrases .header := by
  rcases List.mem_map.1 isProduction with ⟨type, isType, rfl⟩
  have isReturn : productionPhrases type ≤
      oneToken fun t => (ReturnType.ofKind? t.kind).isSome := by
    simp only [Production.returnTypes, Production.valueTypes, List.mem_append, List.mem_cons,
      List.not_mem_nil, or_false] at isType
    have ofWord {word : Keyword} (isType : (ReturnType.ofKind? (.keyword word)).isSome) :
        productionPhrases (.word word) ≤ oneToken fun t => (ReturnType.ofKind? t.kind).isSome := by
      rw [productionPhrases_word]
      rintro _ ⟨t, kind, rfl⟩
      have accepted : (ReturnType.ofKind? t.kind).isSome := by rwa [kind]
      exact ⟨t, accepted, rfl⟩
    rcases isType with (rfl | rfl) | rfl
    · exact ofWord rfl
    · exact ofWord rfl
    · exact ofWord rfl
  simp only [productionPhrases_append, productionPhrases_token, productionPhrases_sign, phrases]
  gcongr

/-- A header and a body are a function. -/
theorem function_closed {u : Production} (isProduction : u ∈ productions .function) :
    productionPhrases u ≤ functionPhrases := by
  simp only [productions, List.mem_singleton] at isProduction
  subst isProduction
  simp only [productionPhrases_append, productionPhrases_part]
  rintro _ ⟨_, header, _, body, rfl⟩
  -- header and body together have the tokens of one function
  simp only [phrases, localPhrases, localDeclPhrases, mul_assoc] at header body
  rcases header with ⟨_, ⟨returnToken, isReturn, rfl⟩, _, ⟨_, ⟨name, nameKind, rfl⟩, _,
    ⟨_, ⟨lparen, isLparen, rfl⟩, _, ⟨_, ⟨param, paramKind, rfl⟩, _, ⟨_, ⟨comma, isComma, rfl⟩, _,
    params, rfl⟩, rfl⟩, rfl⟩, rfl⟩, rfl⟩
  rcases params with ⟨_, ⟨param', paramKind', rfl⟩, _, ⟨_, ⟨comma', isComma', rfl⟩, _,
    ⟨_, ⟨param'', paramKind'', rfl⟩, _, ⟨rparen, isRparen, rfl⟩, rfl⟩, rfl⟩, rfl⟩
  rcases body with ⟨_, ⟨lbrace, isLbrace, rfl⟩, _, ⟨ts, ⟨decl, spelt⟩, _,
    ⟨_, ⟨localComma, isLocalComma, rfl⟩, _, ⟨ts', ⟨decl', spelt'⟩, _,
    ⟨_, ⟨localComma', isLocalComma', rfl⟩, _, rest, rfl⟩, rfl⟩, rfl⟩, rfl⟩, rfl⟩
  rcases rest with ⟨ts'', ⟨decl'', spelt''⟩, _, ⟨_, ⟨localComma'', isLocalComma'', rfl⟩, _,
    ⟨bodyTokens, ⟨body, speltBody⟩, _, ⟨_, ⟨rbrace, isRbrace, rfl⟩, _,
    ⟨inner, ⟨forest, speltInner⟩, _, ⟨closing, isClosing, rfl⟩, rfl⟩, rfl⟩, rfl⟩, rfl⟩, rfl⟩
  rcases Option.isSome_iff_exists.1 isReturn with ⟨type, found⟩
  intro rest behind speltRest
  have head : FunctionDecl.HeadSpeltBy ⟨returnToken, type, .ofToken name,
      ⟨.ofToken param, .ofToken param', .ofToken param''⟩, ⟨decl, decl', decl''⟩, body,
      closing⟩ _ :=
    .intro found nameKind isLparen paramKind isComma paramKind' isComma' paramKind'' isRparen
      isLbrace spelt isLocalComma spelt' isLocalComma' spelt'' isLocalComma'' speltBody isRbrace
  exact ⟨_, by simpa using FunctionsSpeltBy.cons head speltInner isClosing speltRest⟩

/-- Functions may be none, or one in front of others. -/
theorem functions_closed {u : Production} (isProduction : u ∈ productions .functions) :
    productionPhrases u ≤ functionsPhrases := by
  simp only [productions, List.mem_cons, List.not_mem_nil, or_false] at isProduction
  rcases isProduction with rfl | rfl
  · rintro _ rfl
    exact ⟨.nil, .nil⟩
  · simp only [productionPhrases_append, productionPhrases_part]
    rintro _ ⟨ts, function, ts', ⟨rest, speltRest⟩, rfl⟩
    exact function speltRest

/-- Local variables and a block in braces, inner functions and the closing word are a body. -/
theorem body_closed {u : Production} (isProduction : u ∈ productions .body) :
    productionPhrases u ≤ phrases .body := by
  simp only [productions, List.mem_singleton] at isProduction
  subst isProduction
  simp only [productionPhrases_append, productionPhrases_word, productionPhrases_sign,
    productionPhrases_part, phrases]
  exact le_rfl

/-- The main word, global variables, a block and functions are a program. -/
theorem program_closed {u : Production} (isProduction : u ∈ productions .program) :
    productionPhrases u ≤ phrases .program := by
  simp only [productions, List.mem_singleton] at isProduction
  subst isProduction
  simp only [productionPhrases_append, productionPhrases_word, productionPhrases_part, mul_assoc]
  rintro _ ⟨_, ⟨main, isMain, rfl⟩, _, ⟨ts, ⟨decls, speltGlobals⟩, _, ⟨ts', ⟨block, speltBlock⟩,
    ts'', ⟨forest, speltFunctions⟩, rfl⟩, rfl⟩, rfl⟩
  have tree : Program.SpeltBy ⟨main, decls, block, forest, ⟨[]⟩⟩ (main :: (ts ++ (ts' ++ ts''))) :=
    .intro isMain speltGlobals speltBlock speltFunctions
  exact ⟨_, tree⟩

/-! ## Sentences -/

/-- The languages of trees are closed under all productions. -/
theorem phrases_closed (s : GrammarSymbol) {u : Production} (isProduction : u ∈ productions s) :
    productionPhrases u ≤ phrases s := by
  cases s with
  | program => exact program_closed isProduction
  | globals => exact globals_closed isProduction
  | block => exact block_closed isProduction
  | commands => exact commands_closed isProduction
  | command => exact command_closed isProduction
  | assign => exact assign_closed isProduction
  | call => exact call_closed isProduction
  | branch => exact branch_closed isProduction
  | term => exact term_closed isProduction
  | operation => exact operations_closed isProduction
  | condition => exact operations_closed isProduction
  | operand => exact operand_closed isProduction
  | atom => exact atom_closed isProduction
  | constant => exact constant_closed isProduction
  | functions => exact functions_closed isProduction
  | function => exact function_closed isProduction
  | header => exact header_closed isProduction
  | body => exact body_closed isProduction
  | locals => exact locals_closed isProduction

/-- Tokens are phrases of the string of their kinds. -/
theorem mem_productionPhrases_kinds (ts : List Token) :
    ts ∈ productionPhrases ((ts.map Token.kind).map .terminal) := by
  induction ts with
  | nil => exact rfl
  | cons t ts ih => exact ⟨[t], ⟨t, rfl, rfl⟩, ts, ih, rfl⟩

/-- Tokens whose kinds are a sentence spell a program. -/
theorem exists_speltBy_of_mem_language {ts : List Token}
    (sentence : ts.map Token.kind ∈ grammar.language) : ∃ p : Program, p.SpeltBy ts := by
  have closed : ∀ r ∈ grammar.rules, meaning tokensOf phrases r.output ≤ phrases r.input :=
    fun r isRule => phrases_closed r.input (mem_rules_iff.1 isRule)
  have below := meaning_le_of_derives closed sentence
  rw [meaning_nonterminal] at below
  exact below (mem_productionPhrases_kinds ts)

end SplBasic
