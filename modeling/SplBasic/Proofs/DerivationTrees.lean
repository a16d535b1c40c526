import SplBasic.Proofs.Productions
import SplBasic.Proofs.SourceTexts

/-!
# Parse trees as derivation trees

The parse tree of a program is a derivation tree of the grammar that is drawn without punctuation
and without the words `then` and `else`, and its leaves are the tokens of the program without these,
in their order (`parseTree_of_parse`). Resolving names changes the lexemes of the names among them.

* `ParseTree.Licensed` : the parts of every symbol follow one of its productions,
* `ParseTree.yield` : the tokens at the leaves, from left to right,
* `Respelt` : tokens, with the current texts of names in the place of their lexemes,
* `ParseTree.Displays` : what is true of the parse tree of each part of a program. Trees that
  display tokens are put together like the tokens themselves.
-/

namespace SplBasic

/-! ## Derivation trees without punctuation -/

/-- Whether tokens of a kind are drawn. -/
def TokenKind.isShown : TokenKind → Bool
  | .punctuation _ => false
  | .keyword .thenWord => false
  | .keyword .elseWord => false
  | _ => true

def Token.isShown (t : Token) : Bool :=
  t.kind.isShown

/-- The part of a production that is drawn. -/
def Production.shown (u : Production) : Production :=
  u.filter fun
    | .terminal kind => kind.isShown
    | .nonterminal _ => true

/-- The alternatives of a grammar symbol as they are drawn. -/
def shownProductions (s : GrammarSymbol) : List Production :=
  (productions s).map Production.shown

namespace Mark

/-- A node as a string of one symbol. -/
def form : Mark → Production
  | terminal token => .token token.kind
  | nonterminal symbol _ => .part symbol

def token? : Mark → Option Token
  | terminal token => some token
  | nonterminal _ _ => none

end Mark

namespace ParseTree

/-- The roots of trees as a string of symbols. -/
def symbols (d : ParseTree) : Production :=
  d.roots.flatMap Mark.form

/-- The tokens of trees, from left to right. -/
def yield (d : ParseTree) : List Token :=
  d.toList.filterMap Mark.token?

/-- Tokens have no parts, and the parts of every grammar symbol are one of its alternatives. -/
inductive Licensed : ParseTree → Prop
  | nil : Licensed .nil
  | word {token : Token} {rest : ParseTree} :
      Licensed rest → Licensed (.cons (.terminal token) .nil rest)
  | symbol {s : GrammarSymbol} {tag : Ty} {parts rest : ParseTree} :
      parts.symbols ∈ shownProductions s → Licensed parts → Licensed rest →
        Licensed (.cons (.nonterminal s tag) parts rest)

/-- A single derivation tree with the symbol of programs at its root. -/
def DerivesProgram (d : ParseTree) : Prop :=
  d.symbols = .part .program ∧ d.Licensed

end ParseTree

/-- The same tokens, but for names, which have their current texts as lexemes. -/
inductive Respelt : List Token → List KindedName → List Token → Prop
  | nil : Respelt [] [] []
  | other {t : Token} {ts ts' : List Token} {names : List KindedName} :
      t.isName = false → Respelt ts names ts' → Respelt (t :: ts) names (t :: ts')
  | name {n : KindedName} {ts ts' : List Token} {names : List KindedName} :
      n.name.token.kind = n.kind.tokenKind → Respelt ts names ts' →
        Respelt (n.name.token :: ts) (n :: names)
          ({ n.name.token with lexeme := n.name.text } :: ts')

namespace Respelt

/-- Tokens are respelt from left to right. -/
theorem append {ts ts' us us' : List Token} {names others : List KindedName}
    (first : Respelt ts names ts') (second : Respelt us others us') :
    Respelt (ts ++ us) (names ++ others) (ts' ++ us') := by
  induction first with
  | nil => exact second
  | other isOther _ ih => exact .other isOther ih
  | name isKind _ ih => exact .name isKind ih

/-- Nothing changes as long as names have the texts they were read with. -/
theorem eq_of_texts {ts ts' : List Token} {names : List KindedName} (respelt : Respelt ts names ts')
    (texts : ∀ n ∈ names, n.name.text = n.name.source) : ts' = ts := by
  induction respelt with
  | nil => rfl
  | other _ _ ih => rw [ih texts]
  | @name n ts ts' names _ _ ih =>
    rw [ih fun other listed => texts other (List.mem_cons_of_mem _ listed),
      texts n List.mem_cons_self]
    rfl

end Respelt

/-! ## Trees that display tokens -/

/-- The trees are licensed, their roots are the given symbols, and at their leaves are the given
tokens as far as they are drawn, with the given names. -/
structure ParseTree.Displays (d : ParseTree) (u : Production) (ts : List Token)
    (names : List KindedName) : Prop where
  licensed : d.Licensed
  symbols : d.symbols = u
  yield : Respelt (ts.filter Token.isShown) names d.yield

namespace ParseTree

/-- The symbols of neighbours stand side by side. -/
theorem symbols_append (d e : ParseTree) : symbols (d ++ e) = d.symbols ++ e.symbols := by
  induction d with
  | nil => rfl
  | cons root children rest _ ih =>
    have unfolded : Forest.cons root children rest ++ e = .cons root children (rest ++ e) := rfl
    rw [unfolded, symbols, symbols, Forest.roots, Forest.roots, List.flatMap_cons,
      List.flatMap_cons, List.append_assoc]
    exact congrArg _ ih

theorem yield_append (d e : ParseTree) : yield (d ++ e) = d.yield ++ e.yield := by
  rw [yield, Forest.toList_append, List.filterMap_append]
  rfl

theorem yield_tagged (s : GrammarSymbol) (tag : Ty) (d : ParseTree) :
    (tagged s tag d).yield = d.yield := by
  simp only [tagged, Forest.node, yield, Forest.toList, List.append_nil]
  exact List.filterMap_cons_none rfl

/-- Neighbours are licensed each on its own. -/
theorem Licensed.append {d e : ParseTree} (first : d.Licensed) (second : e.Licensed) :
    Licensed (d ++ e) := by
  induction first with
  | nil => exact second
  | word _ ih => exact .word ih
  | symbol isAlternative parts _ _ ih => exact .symbol isAlternative parts ih

namespace Displays

variable {d e : ParseTree} {u v : Production} {ts us : List Token} {names others : List KindedName}

theorem nil : Displays .nil [] [] [] :=
  ⟨.nil, rfl, .nil⟩

/-- Neighbours display what they display side by side. -/
theorem append (first : d.Displays u ts names) (second : e.Displays v us others) :
    Displays (d ++ e) (u ++ v) (ts ++ us) (names ++ others) where
  licensed := first.licensed.append second.licensed
  symbols := by rw [symbols_append, first.symbols, second.symbols]
  yield := by
    rw [List.filter_append, yield_append]
    exact first.yield.append second.yield

/-- A node displays its symbol if its children display one of the productions. -/
theorem symbol {s : GrammarSymbol} (isAlternative : u ∈ shownProductions s)
    (parts : d.Displays u ts names) (tag : Ty) : (tagged s tag d).Displays (.part s) ts names where
  licensed := .symbol (parts.symbols ▸ isAlternative) parts.licensed .nil
  symbols := rfl
  yield := by
    rw [yield_tagged]
    exact parts.yield

/-- A token that is drawn displays its kind. -/
theorem word {t : Token} {kind : TokenKind} (isKind : t.kind = kind) (isShown : kind.isShown = true)
    (isOther : t.isName = false) : (ParseTree.word t).Displays (.token kind) [t] [] where
  licensed := .word .nil
  symbols := congrArg Production.token isKind
  yield := by
    have drawn : t.isShown = true := (congrArg TokenKind.isShown isKind).trans isShown
    rw [List.filter_cons_of_pos drawn]
    exact .other isOther .nil

/-- A name displays its kind, with its present text in place of the lexeme. -/
theorem name {n : Name} (kind : SymbolKind) (isKind : n.token.kind = kind.tokenKind) :
    n.parseTree.Displays (.token kind.tokenKind) [n.token] [⟨kind, n⟩] where
  licensed := .word .nil
  symbols := congrArg Production.token isKind
  yield := by
    have isShown : n.token.isShown = true := by
      rw [Token.isShown, isKind]
      cases kind with
      | «variable» => rfl
      | function => rfl
    rw [List.filter_cons_of_pos isShown]
    exact .name (n := ⟨kind, n⟩) isKind .nil

/-- A token that is not drawn, behind what is. -/
theorem skip (displays : d.Displays u ts names) {t : Token} (isHidden : t.isShown = false) :
    d.Displays u (ts ++ [t]) names where
  licensed := displays.licensed
  symbols := displays.symbols
  yield := by
    rw [List.filter_append, List.filter_cons_of_neg (by simp [isHidden]), List.filter_nil,
      List.append_nil]
    exact displays.yield

/-- A token that is not drawn, in front of what is. -/
theorem lead (displays : d.Displays u ts names) {t : Token} (isHidden : t.isShown = false) :
    d.Displays u (t :: ts) names where
  licensed := displays.licensed
  symbols := displays.symbols
  yield := by
    rw [List.filter_cons_of_neg (by simp [isHidden])]
    exact displays.yield

end Displays

end ParseTree

open ParseTree (Displays symbol tagged)

/-! ## Tokens -/

namespace Token

variable {t : Token}

theorem IsSign.isShown {sign : Punctuation} (isSign : t.IsSign sign) : t.isShown = false := by
  have kind : t.kind = .punctuation sign := isSign
  rw [Token.isShown, kind]
  rfl

theorem IsWord.isShown {word : Keyword} (isWord : t.IsWord word) :
    t.isShown = (TokenKind.keyword word).isShown :=
  congrArg TokenKind.isShown isWord

theorem IsWord.displays {word : Keyword} (isWord : t.IsWord word)
    (isShown : (TokenKind.keyword word).isShown = true) :
    (ParseTree.word t).Displays (.word word) [t] [] :=
  .word isWord isShown isWord.isName

end Token

/-- Separators are not drawn. -/
theorem Separates.skip {d : ParseTree} {u : Production} {ts separator behind : List Token}
    {names : List KindedName} (separates : Separates separator behind)
    (displays : d.Displays u ts names) : d.Displays u (ts ++ separator) names := by
  rcases separates with ⟨rfl, _⟩ | ⟨t, isSemicolon, rfl⟩
  · rwa [List.append_nil]
  · exact displays.skip isSemicolon.isShown

/-! ## Expressions -/

/-- What an atom has below its own symbol can also stand directly below that of a term. -/
theorem Atom.displays_content {a : Atom} {ts : List Token}
    (spelt : (a.mapNames Name.asRead).SpeltBy ts) :
    ∃ u, u ∈ shownProductions .atom ∧ u ∈ shownProductions .term ∧
      a.content.Displays u ts (a.uses.map NameUse.kinded) := by
  cases a with
  | name n =>
    rcases n with ⟨token, text, tag⟩
    cases spelt with
    | «variable» kind =>
      exact ⟨_, by decide, by decide, .name (n := ⟨token, text, .unknown⟩) .variable kind⟩
  | literal l =>
    cases spelt with
    | number kind =>
      have leaf := Displays.word kind rfl (by simp [Token.isName, kind])
      exact ⟨_, by decide, by decide, leaf.symbol (by decide) _⟩
    | text kind =>
      have leaf := Displays.word kind rfl (by simp [Token.isName, kind])
      exact ⟨_, by decide, by decide, leaf.symbol (by decide) _⟩

/-- The tree of an atom displays a constant or a name. -/
theorem Atom.displays {a : Atom} {ts : List Token} (spelt : (a.mapNames Name.asRead).SpeltBy ts) :
    a.parseTree.Displays (.part .atom) ts (a.uses.map NameUse.kinded) := by
  rcases a.displays_content spelt with ⟨u, isAlternative, _, content⟩
  exact content.symbol isAlternative _

/-- The symbol at the root of an expression, given the one that an operation gets. -/
def Expr.symbolAs (role : GrammarSymbol) : Expr → Production
  | .atom _ => .part .atom
  | _ => .part role

/-- An operand is displayed as an atom or as an operation. -/
theorem Expr.symbolAs_operation_mem (e : Expr) :
    e.symbolAs .operation ∈ shownProductions .operand := by
  have isAtom : .part .atom ∈ shownProductions .operand := by decide
  have isOperation : .part .operation ∈ shownProductions .operand := by decide
  cases e with
  | atom a => exact isAtom
  | unary op token operand tag => exact isOperation
  | binary op token left right tag => exact isOperation

/-- The alternatives of an operation are one for each operator. -/
theorem operation_mem_shownProductions {role : GrammarSymbol}
    (isRole : productions role = Production.operations) (op : Operator) :
    Production.token (.operator op) ++ (Production.operands op).shown ∈ shownProductions role := by
  rw [shownProductions, isRole, Production.operations, List.map_map]
  refine List.mem_map.2 ⟨op, op.mem_all, ?_⟩
  cases op with
  | unary op => rfl
  | binary op => rfl

/-- The tree of an expression displays it in any role that an operation can have. -/
theorem Expr.displays {e : Expr} {ts : List Token} (spelt : (e.mapNames Name.asRead).SpeltBy ts)
    {role : GrammarSymbol} (isRole : productions role = Production.operations) :
    (e.parseTreeAs role).Displays (e.symbolAs role) ts (e.uses.map NameUse.kinded) := by
  have isOperation : productions .operation = Production.operations := rfl
  induction e generalizing ts role with
  | atom a =>
    cases spelt with
    | atom spelt => exact a.displays spelt
  | unary op token operand tag ih =>
    cases spelt with
    | unary kind isParen inner isClosing =>
      have operator := Displays.word kind rfl (by simp [Token.isName, kind])
      have argument := (ih inner isOperation).symbol operand.symbolAs_operation_mem operand.tag
      have parts := (operator.skip isParen.isShown).append (argument.skip isClosing.isShown)
      simpa [uses, parseTreeAs, symbolAs] using
        parts.symbol (operation_mem_shownProductions isRole (.unary op)) .unknown
  | binary op token left right tag ihLeft ihRight =>
    cases spelt with
    | binary kind isParen first isComma second isClosing =>
      have operator := Displays.word kind rfl (by simp [Token.isName, kind])
      have argument := (ihLeft first isOperation).symbol left.symbolAs_operation_mem left.tag
      have argument' := (ihRight second isOperation).symbol right.symbolAs_operation_mem right.tag
      have parts := ((operator.skip isParen.isShown).append (argument.skip isComma.isShown)).append
        (argument'.skip isClosing.isShown)
      simpa [uses, parseTreeAs, symbolAs] using
        parts.symbol (operation_mem_shownProductions isRole (.binary op)) .unknown

theorem Expr.displays_condition {e : Expr} {ts : List Token}
    (isOperation : (e.mapNames Name.asRead).IsOperation)
    (spelt : (e.mapNames Name.asRead).SpeltBy ts) :
    (e.parseTreeAs .condition).Displays (.part .condition) ts (e.uses.map NameUse.kinded) := by
  cases e with
  | atom a => cases isOperation
  | unary op token operand tag => exact Expr.displays spelt rfl
  | binary op token left right tag => exact Expr.displays spelt rfl

/-- The tree of a call displays its name and its arguments; brackets and commas are not drawn. -/
theorem Call.displays {c : Call} {ts : List Token}
    (spelt : (c.mapNames Name.asRead Name.asRead).SpeltBy ts) :
    c.parseTree.Displays (.part .call) ts (c.uses.map NameUse.kinded) := by
  rcases c with ⟨⟨token, text, nameTag⟩, ⟨first, second, third⟩, tag⟩
  cases spelt with
  | intro kind isParen spelt isComma spelt' isComma' spelt'' isClosing =>
    have callee := Displays.name (n := ⟨token, text, .unknown⟩) .function kind
    have parts := (((callee.skip isParen.isShown).append
      ((first.displays spelt).skip isComma.isShown)).append
      ((second.displays spelt').skip isComma'.isShown)).append
      ((third.displays spelt'').skip isClosing.isShown)
    simpa [parseTree, uses, Triple.toList, NameUse.kinded] using
      parts.symbol (s := .call) (by decide) .unknown

/-- A term is displayed without a node of its own for what it consists of. -/
theorem Term.displays {value : Term} {ts : List Token}
    (spelt : (value.mapNames Name.asRead Name.asRead).SpeltBy ts) :
    value.parseTree.Displays (.part .term) ts (value.uses.map NameUse.kinded) := by
  have isOperation : .part .operation ∈ shownProductions .term := by decide
  cases value with
  | expr e =>
    cases spelt with
    | expr spelt =>
      cases e with
      | atom a =>
        cases spelt with
        | atom spelt =>
          rcases a.displays_content spelt with ⟨u, _, isAlternative, content⟩
          exact content.symbol isAlternative _
      | unary op token operand tag => exact (Expr.displays spelt rfl).symbol isOperation _
      | binary op token left right tag => exact (Expr.displays spelt rfl).symbol isOperation _
  | call c =>
    cases spelt with
    | call spelt => exact (c.displays spelt).symbol (by decide) _

/-! ## Commands -/

/-- What stands below the node of a command displays one of the alternatives. -/
theorem SimpleCommand.displays {command : SimpleCommand} {ts : List Token}
    (spelt : (command.mapNames Name.asRead Name.asRead).SpeltBy ts) :
    ∃ u ∈ shownProductions .command,
      command.content.Displays u ts (command.uses.map NameUse.kinded) := by
  cases command with
  | skip keyword =>
    cases spelt with
    | skip isWord => exact ⟨_, by decide, isWord.displays rfl⟩
  | halt keyword =>
    cases spelt with
    | halt isWord => exact ⟨_, by decide, isWord.displays rfl⟩
  | print keyword value =>
    cases spelt with
    | print isWord spelt =>
      exact ⟨_, by decide, (isWord.displays rfl).append (value.displays spelt)⟩
  | giveBack keyword value =>
    cases spelt with
    | giveBack isWord spelt =>
      exact ⟨_, by decide, (isWord.displays rfl).append (value.displays spelt)⟩
  | read target keyword =>
    rcases target with ⟨token, text, tag⟩
    cases spelt with
    | read kind isLess isInput =>
      have target := Displays.name (n := ⟨token, text, .unknown⟩) .variable kind
      have parts := (target.skip isLess.isShown).append (isInput.displays rfl)
      exact ⟨_, by decide, parts.symbol (s := .assign) (by decide) .unknown⟩
  | assign target value =>
    rcases target with ⟨token, text, tag⟩
    cases spelt with
    | assign kind isAssign spelt =>
      have target := Displays.name (n := ⟨token, text, .unknown⟩) .variable kind
      have parts := (target.skip isAssign.isShown).append (value.displays spelt)
      exact ⟨_, by decide, parts.symbol (s := .assign) (by decide) .unknown⟩
  | call c =>
    cases spelt with
    | call spelt => exact ⟨_, by decide, c.displays spelt⟩

/-- A block around commands. -/
theorem Brackets.displays (brackets : Brackets) {commands : ParseTree} {ts : List Token}
    {names : List KindedName} (isOpening : brackets.opening.IsWord .beginWord)
    (displays : commands.Displays (.part .commands) ts names)
    (isClosing : brackets.closing.IsWord .endWord) :
    (brackets.parseTree commands).Displays (.part .block)
      (brackets.opening :: (ts ++ [brackets.closing])) names := by
  have parts := ((isOpening.displays rfl).append displays).append (isClosing.displays rfl)
  simpa [parseTree, ParseTree.symbol] using parts.symbol (s := .block) (by decide) .unknown

/-- A command in front of others, with or without a semicolon between them. -/
theorem displays_command {content rest : ParseTree} {u : Production}
    {ts separator behind : List Token} {names others : List KindedName}
    (isAlternative : u ∈ shownProductions .command) (displays : content.Displays u ts names)
    (separates : Separates separator behind)
    (follows : rest.Displays (.part .commands) behind others) (tag : Ty) :
    (symbol .commands (tagged .command tag content ++ rest)).Displays (.part .commands)
      (ts ++ (separator ++ behind)) (names ++ others) := by
  -- a last command without semicolon is drawn like one with it, in front of no commands
  have parts := (separates.skip (displays.symbol isAlternative tag)).append follows
  simpa [ParseTree.symbol] using parts.symbol (s := .commands) (by decide) .unknown

/-- The tree of commands displays them, with all blocks inside them. -/
theorem Commands.displays {cs : Commands} {ts : List Token}
    (spelt : (cs.mapNames Name.asRead Name.asRead).SpeltBy ts) :
    cs.parseTree.Displays (.part .commands) ts (cs.uses.map NameUse.kinded) := by
  induction cs generalizing ts with
  | nil =>
    cases spelt
    exact Displays.nil.symbol (by decide) _
  | simple command tag rest ih =>
    cases spelt with
    | simple spelt separates follows =>
      rcases command.displays spelt with ⟨u, isAlternative, content⟩
      simpa [parseTree, uses] using
        displays_command isAlternative content separates (ih follows) .unknown
  | ifThen keyword condition brackets body tag rest ihBody ihRest =>
    rcases brackets with ⟨opening, closing⟩
    cases spelt with
    | ifThen isIf isOperation test isThen isOpening inner isClosing separates follows =>
      have test := condition.displays_condition isOperation test
      have block := Brackets.displays ⟨opening, closing⟩ isOpening (ihBody inner) isClosing
      have parts := ((isIf.displays rfl).append (test.skip isThen.isShown)).append block
      have branch := parts.symbol (s := .branch) (by decide) .unknown
      simpa [parseTree, uses, ParseTree.symbol] using
        displays_command (by decide) branch separates (ihRest follows) .unknown
  | ifThenElse keyword condition thenBrackets thenBody elseBrackets elseBody tag rest ihThen ihElse
      ihRest =>
    rcases thenBrackets with ⟨opening, closing⟩
    rcases elseBrackets with ⟨elseOpening, elseClosing⟩
    cases spelt with
    | ifThenElse isIf isOperation test isThen isOpening inner isClosing isElse isElseOpening inner'
        isElseClosing separates follows =>
      have test := condition.displays_condition isOperation test
      have block := Brackets.displays ⟨opening, closing⟩ isOpening (ihThen inner) isClosing
      have block' := Brackets.displays ⟨elseOpening, elseClosing⟩ isElseOpening (ihElse inner')
        isElseClosing
      have parts := (((isIf.displays rfl).append (test.skip isThen.isShown)).append
        (block.skip isElse.isShown)).append block'
      have branch := parts.symbol (s := .branch) (by decide) .unknown
      simpa [parseTree, uses, ParseTree.symbol] using
        displays_command (by decide) branch separates (ihRest follows) .unknown

/-- The tree of a block displays it with its words. -/
theorem Block.displays {block : Block} {ts : List Token} (spelt : block.asRead.SpeltBy ts) :
    block.parseTree.Displays (.part .block) ts (block.commands.uses.map NameUse.kinded) := by
  rcases block with ⟨⟨opening, closing⟩, commands⟩
  cases spelt with
  | intro isOpening spelt isClosing =>
    exact Brackets.displays ⟨opening, closing⟩ isOpening (commands.displays spelt) isClosing

/-! ## Declarations -/

/-- The word for a value type displays one of the listed types. -/
theorem Token.displays_valueType {t : Token} {type : ValueType}
    (isType : ValueType.ofKind? t.kind = some type) :
    ∃ u ∈ Production.valueTypes, (ParseTree.word t).Displays u [t] [] := by
  unfold ValueType.ofKind? at isType
  split at isType
  · next kind => exact ⟨_, by decide, Token.IsWord.displays kind rfl⟩
  · next kind => exact ⟨_, by decide, Token.IsWord.displays kind rfl⟩
  · cases isType

theorem Token.displays_returnType {t : Token} {type : ReturnType}
    (isType : ReturnType.ofKind? t.kind = some type) :
    ∃ u ∈ Production.returnTypes, (ParseTree.word t).Displays u [t] [] := by
  unfold ReturnType.ofKind? at isType
  split at isType
  · next kind => exact ⟨_, by decide, Token.IsWord.displays kind rfl⟩
  · rcases Option.map_eq_some_iff.1 isType with ⟨valueType, isValueType, _⟩
    rcases Token.displays_valueType isValueType with ⟨u, isAlternative, displays⟩
    exact ⟨u, List.mem_append_left _ isAlternative, displays⟩

theorem VarDecl.displays {decl : VarDecl} {ts : List Token} (spelt : decl.asRead.SpeltBy ts) :
    ∃ u ∈ Production.valueTypes,
      decl.parseTree.Displays (u ++ .token .varName) ts [⟨.variable, decl.name⟩] := by
  rcases decl with ⟨typeToken, type, ⟨token, text, tag⟩⟩
  cases spelt with
  | intro isType kind =>
    rcases Token.displays_valueType isType with ⟨u, isAlternative, displays⟩
    exact ⟨u, isAlternative, displays.append (.name (n := ⟨token, text, .unknown⟩) .variable kind)⟩

/-- The tree of the global variables displays them; it is nested to the right. -/
theorem displays_globals {globals : List VarDecl} {ts : List Token}
    (spelt : GlobalsSpeltBy (globals.map VarDecl.asRead) ts) :
    (globalsTree globals).Displays (.part .globals) ts
      (globals.map fun decl => ⟨.variable, decl.name⟩) := by
  have single : ∀ u ∈ Production.valueTypes,
      u ++ .token .varName ∈ shownProductions .globals := by decide
  have several : ∀ u ∈ Production.valueTypes,
      u ++ .token .varName ++ .part .globals ∈ shownProductions .globals := by decide
  induction globals generalizing ts with
  | nil =>
    cases spelt
    exact Displays.nil.symbol (by decide) _
  | cons decl rest ih =>
    cases rest with
    | nil =>
      cases spelt with
      | last spelt =>
        rcases decl.displays spelt with ⟨u, isType, displays⟩
        exact displays.symbol (single u isType) _
      | more spelt isComma follows =>
        -- the comma behind the last global leaves no trace in the tree
        rcases decl.displays spelt with ⟨u, isType, displays⟩
        cases follows
        exact (displays.skip isComma.isShown).symbol (single u isType) _
    | cons next rest =>
      cases spelt with
      | more spelt isComma follows =>
        rcases decl.displays spelt with ⟨u, isType, displays⟩
        have parts := (displays.skip isComma.isShown).append (ih follows)
        simpa [globalsTree, ParseTree.symbol] using parts.symbol (several u isType) .unknown

/-- A function around the functions inside it. -/
theorem FunctionDecl.displays {f : FunctionDecl} {inner : ParseTree} {head ts : List Token}
    {names : List KindedName} (spelt : f.asRead.HeadSpeltBy head)
    (displays : inner.Displays (.part .functions) ts names)
    (isClosing : f.closing.IsWord .endWord) :
    (f.parseTree inner).Displays (.part .function) (head ++ (ts ++ [f.closing]))
      (f.names ++ names) := by
  -- brackets and commas are not drawn, so the shown alternatives have names only
  have isHeader : ∀ u ∈ Production.returnTypes, u ++ .token .funName ++ .token .varName
      ++ .token .varName ++ .token .varName ∈ shownProductions .header := by decide
  have isLocals : ∀ u ∈ Production.valueTypes, ∀ u' ∈ Production.valueTypes,
      ∀ u'' ∈ Production.valueTypes, (u ++ .token .varName) ++ (u' ++ .token .varName)
        ++ (u'' ++ .token .varName) ∈ shownProductions .locals := by decide
  rcases f with ⟨returnToken, returnType, ⟨token, text, _⟩,
    ⟨⟨first, firstText, _⟩, ⟨second, secondText, _⟩, ⟨third, thirdText, _⟩⟩,
    ⟨decl, decl', decl''⟩, body, closing⟩
  cases spelt with
  | intro isType kind isParen kindFirst isComma kindSecond isComma' kindThird isRparen isLbrace
      spelt isLocalComma spelt' isLocalComma' spelt'' isLocalComma'' bodySpelt isRbrace =>
    rcases Token.displays_returnType isType with ⟨t, isReturnType, type⟩
    rcases decl.displays spelt with ⟨u, isValueType, decl⟩
    rcases decl'.displays spelt' with ⟨u', isValueType', decl'⟩
    rcases decl''.displays spelt'' with ⟨u'', isValueType'', decl''⟩
    have name := (Displays.name (n := ⟨token, text, .unknown⟩) .function kind).skip isParen.isShown
    have first := (Displays.name (n := ⟨first, firstText, .unknown⟩) .variable kindFirst).skip
      isComma.isShown
    have second := (Displays.name (n := ⟨second, secondText, .unknown⟩) .variable kindSecond).skip
      isComma'.isShown
    have third := (Displays.name (n := ⟨third, thirdText, .unknown⟩) .variable kindThird).skip
      isRparen.isShown
    have header := ((((type.append name).append first).append second).append third).symbol
      (isHeader t isReturnType) .unknown
    have locals := (((decl.skip isLocalComma.isShown).append
      (decl'.skip isLocalComma'.isShown)).append (decl''.skip isLocalComma''.isShown)).symbol
        (isLocals u isValueType u' isValueType' u'' isValueType'') .unknown
    have block := (body.displays bodySpelt).skip isRbrace.isShown
    -- inner functions are drawn inside the body, in front of the closing word
    have body := ((((locals.lead isLbrace.isShown).append block).append displays).append
      (isClosing.displays rfl)).symbol (s := .body) (by decide) .unknown
    simpa [FunctionDecl.parseTree, FunctionDecl.names, FunctionDecl.entries, Triple.toList,
      ParseTree.symbol, VarDecl.entry] using
      (header.append body).symbol (s := .function) (by decide) .unknown

/-- The tree of the functions displays them, with the functions inside them. -/
theorem displays_functions {forest : Forest FunctionDecl} {ts : List Token}
    (spelt : FunctionsSpeltBy (forest.map FunctionDecl.asRead) ts) :
    (functionsTree forest).Displays (.part .functions) ts
      (forest.toList.flatMap FunctionDecl.names) := by
  induction forest generalizing ts with
  | nil =>
    cases spelt
    exact Displays.nil.symbol (by decide) _
  | cons f inner rest ihInner ihRest =>
    cases spelt with
    | cons head spelt isClosing spelt' =>
      have parts := (f.displays head (ihInner spelt) isClosing).append (ihRest spelt')
      simpa [functionsTree, ParseTree.symbol, Forest.toList, FunctionDecl.asRead] using
        parts.symbol (s := .functions) (by decide) .unknown

/-- The tree of a program displays the whole program. -/
theorem Program.displays {p : Program} {ts : List Token} (spelt : p.asRead.SpeltBy ts) :
    p.parseTree.Displays (.part .program) ts p.names := by
  rcases p with ⟨main, globals, block, functions, source⟩
  cases spelt with
  | intro isMain spelt blockSpelt spelt' =>
    have parts := (((isMain.displays rfl).append (displays_globals spelt)).append
      (block.displays blockSpelt)).append (displays_functions spelt')
    simpa [parseTree, ParseTree.symbol, names] using
      parts.symbol (s := .program) (by decide) .unknown

/-- The parse tree of a parsed program is a derivation tree without punctuation, `then` and `else`,
and the other tokens that the grammar sees are its leaves, from left to right. Once names are
resolved it is still one, and its leaves are the same but for names, which have their new texts. -/
theorem parseTree_of_parse {tokens : List Token} {p : Program} (parsed : parse tokens = .ok p) :
    p.parseTree.DerivesProgram ∧
    p.parseTree.yield = (seenTokens tokens).filter Token.isShown ∧
    (resolve p).program.parseTree.DerivesProgram ∧
    Respelt p.parseTree.yield (resolve p).program.names (resolve p).program.parseTree.yield := by
  rw [← significant_eq_seenTokens]
  have spelt : p.SpeltBy (significant tokens) := spelt_of_parse parsed
  -- the resolved program is still read from these tokens, once texts are put back
  have resolved : (resolve p).program.asRead = p :=
    (p.asRead_bindNames p.scopeTree).trans spelt.asRead
  have before := Program.displays (spelt.asRead.symm ▸ spelt)
  have behind := Program.displays (resolved.symm ▸ spelt)
  have yield : p.parseTree.yield = (significant tokens).filter Token.isShown :=
    before.yield.eq_of_texts spelt.text
  rw [yield]
  exact ⟨⟨before.symbols, before.licensed⟩, rfl, ⟨behind.symbols, behind.licensed⟩, behind.yield⟩

/-- The parse tree of a program with a function inside a function. -/
theorem parseTree_nestedSource :
    ∃ tokens p, tokenize nestedSource "nested.spl" = .ok tokens ∧ parse tokens = .ok p ∧
      p.parseTree.DerivesProgram ∧
      p.parseTree.yield = (seenTokens tokens).filter Token.isShown ∧
      (resolve p).program.parseTree.DerivesProgram ∧
      Respelt p.parseTree.yield (resolve p).program.names (resolve p).program.parseTree.yield := by
  rcases exists_program_nestedSource with ⟨tokens, p, read, parsed, _⟩
  exact ⟨tokens, p, read, parsed, parseTree_of_parse parsed⟩

end SplBasic
