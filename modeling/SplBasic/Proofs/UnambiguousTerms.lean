import SplBasic.Proofs.FunctionBlocks
import SplBasic.Proofs.ProblemPlaces
import SplBasic.Proofs.Untagged

/-!
# Terms are told apart by their texts

A listing shows of a term its shape, its operators, its literals and the unique names of its
variables and of its callee (`Term.essence`). It does not show places, type tags or how names and
operators were spelt in the source. All that it shows can be read off the text of the term again:
two terms of compiled programs have the same text exactly if they agree in all this
(`basic_eq_iff_essence_eq`).

* `Program.terms` : the terms of a program, with the operands and arguments inside them,
* `Term.Legible` : what the terms of compiled programs are written from,
* `Atom.Legible.eq_of_append_eq` : the text of an atom ends where it cannot go on,
* `Expr.Legible.essence_eq_of_append_eq` : so does the text of an expression, by induction on it,
* `legible_of_parse` : the terms of a program that was read and resolved are legible.
-/

namespace SplBasic

/-! ## What a listing shows of a term -/

namespace Token

/-- The token without its place. -/
def unplaced (t : Token) : Token :=
  { t with file := "", pos := .start }

/-- The token without its place and its spelling: only its kind is left. -/
def unspelt (t : Token) : Token :=
  { t.unplaced with lexeme := "" }

end Token

/-- Takes away places, tags and the spellings of names and operators in the source. -/
def Change.essence : Change where
  word := Token.unspelt
  onVariable n := ⟨n.token.unspelt, n.text, .unknown⟩
  onFunction n := ⟨n.token.unspelt, n.text, .unknown⟩
  onLiteral l := ⟨l.token.unplaced, l.type, .unknown⟩
  tag _ := .unknown

/-- The term without places, tags and the spellings of names and operators in the source. -/
def Term.essence (t : Term) : Term :=
  t.map .essence

/-! ## Terms of programs -/

namespace Expr

/-- The expression and the operands inside it, at any depth. -/
def terms : Expr → List Term
  | atom a => [.expr (atom a)]
  | unary op token operand tag => .expr (unary op token operand tag) :: operand.terms
  | binary op token left right tag =>
    .expr (binary op token left right tag) :: (left.terms ++ right.terms)

end Expr

namespace Call

def terms (c : Call) : List Term :=
  .call c :: c.args.toList.map fun a => .expr (.atom a)

end Call

namespace Term

def terms : Term → List Term
  | expr e => e.terms
  | call c => c.terms

end Term

namespace SimpleCommand

def terms : SimpleCommand → List Term
  | skip _ => []
  | halt _ => []
  | print _ value => [.expr (.atom value)]
  | giveBack _ value => [.expr (.atom value)]
  | read _ _ => []
  | assign _ value => value.terms
  | call c => c.terms

end SimpleCommand

namespace Commands

/-- The terms of the commands; conditions are among them. -/
def terms : Commands → List Term
  | nil => []
  | simple command _ rest => command.terms ++ rest.terms
  | ifThen _ condition _ body _ rest => condition.terms ++ body.terms ++ rest.terms
  | ifThenElse _ condition _ thenBody _ elseBody _ rest =>
    condition.terms ++ thenBody.terms ++ elseBody.terms ++ rest.terms

end Commands

namespace Program

/-- The terms of the program, in all blocks. -/
def terms (p : Program) : List Term :=
  p.block.commands.terms ++ p.functions.toList.flatMap fun f => f.body.commands.terms

end Program

section Terms

variable (κ : Change)

/-- The terms of a changed expression are its terms, changed one by one. -/
theorem Expr.terms_map (e : Expr) : (e.map κ).terms = e.terms.map (Term.map κ) := by
  induction e with
  | atom a => rfl
  | unary op token operand tag ih =>
    rw [map, terms, ih, terms, List.map_cons]
    rfl
  | binary op token left right tag ihLeft ihRight =>
    rw [map, terms, ihLeft, ihRight, terms, List.map_cons, List.map_append]
    rfl

theorem SimpleCommand.terms_map (command : SimpleCommand) :
    (command.map κ).terms = command.terms.map (Term.map κ) := by
  cases command with
  | skip keyword => rfl
  | halt keyword => rfl
  | print keyword value => rfl
  | giveBack keyword value => rfl
  | read target keyword => rfl
  | assign target value =>
    cases value with
    | expr e => exact e.terms_map κ
    | call c => rfl
  | call c => rfl

/-- The terms of changed commands are their terms, changed one by one. -/
theorem Commands.terms_map (cs : Commands) : (cs.map κ).terms = cs.terms.map (Term.map κ) := by
  induction cs with
  | nil => rfl
  | simple command tag rest ih => simp only [map, terms, command.terms_map, ih, List.map_append]
  | ifThen keyword condition brackets body tag rest ihBody ihRest =>
    simp only [map, terms, condition.terms_map, ihBody, ihRest, List.map_append]
  | ifThenElse keyword condition thenBrackets thenBody elseBrackets elseBody tag rest ihThen ihElse
      ihRest =>
    simp only [map, terms, condition.terms_map, ihThen, ihElse, ihRest, List.map_append]

/-- The terms of a changed program are its terms, changed one by one. -/
theorem Program.terms_map (p : Program) : (p.map κ).terms = p.terms.map (Term.map κ) := by
  have body (f : FunctionDecl) :
      (f.map κ).body.commands.terms = f.body.commands.terms.map (Term.map κ) :=
    f.body.commands.terms_map κ
  simp only [terms, map, Block.map, Commands.terms_map, Forest.toList_map, List.flatMap_map, body,
    List.map_append, List.map_flatMap]

end Terms

/-! ## Texts that end where they cannot go on -/

/-- Two texts of `p` characters that go on with other characters, if at all, are read off what they
make up together with what follows. -/
theorem eq_of_append_eq_of_ends {p : Char → Bool} {cs cs' rest rest' : List Char}
    (all : ∀ c ∈ cs, p c = true) (ends : ∀ c ∈ rest.head?, p c = false)
    (all' : ∀ c ∈ cs', p c = true) (ends' : ∀ c ∈ rest'.head?, p c = false)
    (same : cs ++ rest = cs' ++ rest') : cs = cs' ∧ rest = rest' := by
  have front : cs = cs' := by
    calc cs = (cs ++ rest).takeWhile p :=
          (Lexeme.takeWhile_append_eq_left_iff.2 ⟨all, ends⟩).symm
      _ = (cs' ++ rest').takeWhile p := by rw [same]
      _ = cs' := Lexeme.takeWhile_append_eq_left_iff.2 ⟨all', ends'⟩
  subst front
  exact ⟨rfl, List.append_cancel_left same⟩

/-- The characters of unique names and of numbers. -/
def isPlain (c : Char) : Bool :=
  c.isAlphanum || c == '-' || c == '.'

/-- What follows does not go on like a name or a number. -/
def Ends (rest : List Char) : Prop :=
  ∀ c ∈ rest.head?, isPlain c = false

theorem ends_nil : Ends [] := by
  intro c member
  cases member

theorem ends_cons {c : Char} (sign : isPlain c = false) (rest : List Char) : Ends (c :: rest) := by
  intro d member
  cases member
  exact sign

/-! ## Atoms -/

/-- The kind of a literal tells its type. -/
theorem ValueType.literalKind_injective {type type' : ValueType}
    (same : type.literalKind = type'.literalKind) : type = type' := by
  cases type with
  | num =>
    cases type' with
    | num => rfl
    | text => cases same
  | text =>
    cases type' with
    | num => cases same
    | text => rfl

/-- No literal is a name. -/
theorem ValueType.varName_ne_literalKind (type : ValueType) : .varName ≠ type.literalKind := by
  cases type with
  | num => decide
  | text => decide

/-- The token that the atom was read from. -/
def Atom.token : Atom → Token
  | name n => n.token
  | literal l => l.token

/-- The kind of token that an atom was read from, told by the first character of its text. -/
def kindByFirst (c : Char) : TokenKind :=
  if c = '"' then .textLit else if Lexeme.startsNumber c then .numLit else .varName

/-- The atom was read from a token, and is written as a unique name or as a literal of a text. -/
structure Atom.Legible (a : Atom) : Prop where
  spelt : ∃ ts, (a.mapNames Name.asRead).SpeltBy ts
  settled : Settled a.parts

namespace Atom.Legible

variable {a b : Atom}

/-- A name was read from a token for variables. -/
theorem kind_of_name {n : Name} (legible : (Atom.name n).Legible) : n.token.kind = .varName := by
  rcases n with ⟨token, text, tag⟩
  rcases legible.spelt with ⟨ts, spelt⟩
  cases spelt with
  | «variable» kind => exact kind

/-- A literal was read from a token for literals of its type. -/
theorem kind_of_literal {l : Literal} (legible : (Atom.literal l).Legible) :
    l.token.kind = l.type.literalKind := by
  rcases legible.spelt with ⟨ts, spelt⟩
  exact (spelt.parts.isRead _ List.mem_cons_self).1

theorem numbered {n : Name} (legible : (Atom.name n).Legible) : n.Numbered :=
  legible.settled _ List.mem_cons_self

theorem spelling {l : Literal} (legible : (Atom.literal l).Legible) :
    l.token.lexeme.toList ∈ Lexeme.spellings l.type.literalKind :=
  legible.settled _ List.mem_cons_self

/-- The first character of an atom tells what kind of token it was read from, and no atom starts
like an operation. -/
theorem exists_first (legible : a.Legible) :
    ∃ c cs, a.basic.toList = c :: cs ∧ a.token.kind = kindByFirst c ∧
      c ≠ '(' ∧ c ≠ 'N' ∧ c ≠ 'S' := by
  cases a with
  | name n =>
    rcases legible.numbered with ⟨kind, number, text⟩
    have chars : (Atom.name n).basic.toList = kind.letter.toList ++ (toString number).toList := by
      rw [basic, text, SymbolKind.numberedName, String.toList_append]
    rw [chars, token, legible.kind_of_name]
    cases kind with
    | «variable» => exact ⟨'v', (toString number).toList, rfl, rfl, by decide⟩
    | function => exact ⟨'f', (toString number).toList, rfl, rfl, by decide⟩
  | literal l =>
    -- a literal is written as in the source, so its first character is what opens its lexeme
    rcases Lexeme.exists_opens_of_spelling legible.spelling with ⟨c, cs, chars, opens⟩
    rw [basic, chars, token, legible.kind_of_literal]
    refine ⟨c, cs, rfl, ?_⟩
    cases type : l.type with
    | num =>
      have starts : Lexeme.startsNumber c = true := by rwa [type] at opens
      -- a digit or a sign is none of the characters that other terms start with
      have other (d : Char) (isOther : Lexeme.startsNumber d = false) : c ≠ d := by
        rintro rfl
        exact absurd starts (by simp [isOther])
      refine ⟨?_, other '(' rfl, other 'N' rfl, other 'S' rfl⟩
      rw [kindByFirst, if_neg (other '"' rfl), if_pos starts]
      rfl
    | text =>
      have isQuote : c = '"' := by rwa [type] at opens
      subst isQuote
      exact ⟨rfl, by decide⟩

/-- An atom is written with the characters of names and numbers, or as a quoted text. -/
theorem plain_or_quoted (legible : a.Legible) :
    (∀ c ∈ a.basic.toList, isPlain c = true) ∨
      ∃ body, (∀ c ∈ body, Lexeme.isTextChar c = true) ∧
        a.basic.toList = '"' :: (body ++ ['"']) := by
  cases a with
  | name n =>
    left
    intro c member
    simp [isPlain, legible.numbered.isAlphanum c member]
  | literal l =>
    have spelt := legible.spelling
    cases type : l.type with
    | num =>
      left
      rw [type] at spelt
      rcases Lexeme.numberChars_of_spelling spelt with ⟨c, cs, chars, first, later⟩
      have digit {d : Char} (isDigit : d.isDigit = true) : isPlain d = true := by
        simp [isPlain, Char.isAlphanum, isDigit]
      rw [basic, chars, List.forall_mem_cons]
      simp only [Lexeme.startsNumber, Lexeme.isNumberChar, Bool.or_eq_true, beq_iff_eq]
        at first later
      constructor
      · rcases first with isDigit | rfl
        · exact digit isDigit
        · rfl
      · intro d member
        rcases later d member with isDigit | rfl
        · exact digit isDigit
        · rfl
    | text =>
      right
      rw [type] at spelt
      exact Lexeme.mem_quotedText.1 spelt

/-- No atom starts like an operation. -/
theorem append_ne_bracket (legible : a.Legible) (rest inner : List Char) :
    a.basic.toList ++ rest ≠ '(' :: inner := by
  rcases legible.exists_first with ⟨c, cs, chars, _, notBracket, _⟩
  intro same
  rw [chars, List.cons_append] at same
  exact notBracket (List.cons.inj same).1

/-- The text of an atom ends where it cannot go on. -/
theorem eq_of_append_eq (legible : a.Legible) (legible' : b.Legible) {rest rest' : List Char}
    (ends : Ends rest) (ends' : Ends rest')
    (same : a.basic.toList ++ rest = b.basic.toList ++ rest') :
    a.basic = b.basic ∧ rest = rest' := by
  -- a quote is not a character of names and numbers
  have apart {x y : Atom} (isLegible : x.Legible) {u v body : List Char}
      (plain : ∀ c ∈ x.basic.toList, isPlain c = true)
      (quoted : y.basic.toList = '"' :: (body ++ ['"'])) :
      x.basic.toList ++ u ≠ y.basic.toList ++ v := by
    rcases isLegible.exists_first with ⟨c, cs, chars, _⟩
    intro same
    rw [chars, quoted, List.cons_append, List.cons_append, List.cons.injEq] at same
    have isQuote : isPlain '"' = true := same.1 ▸ plain c (by rw [chars]; exact List.mem_cons_self)
    cases isQuote
  rcases legible.plain_or_quoted with plain | ⟨body, inside, quoted⟩
  · rcases legible'.plain_or_quoted with plain' | ⟨body', inside', quoted'⟩
    · rcases eq_of_append_eq_of_ends plain ends plain' ends' same with ⟨chars, behind⟩
      exact ⟨String.toList_injective chars, behind⟩
    · exact absurd same (apart legible plain quoted')
  · rcases legible'.plain_or_quoted with plain' | ⟨body', inside', quoted'⟩
    · exact absurd same.symm (apart legible' plain' quoted)
    · have bodies : body ++ '"' :: rest = body' ++ '"' :: rest' := by
        simpa [quoted, quoted'] using same
      have closes (u : List Char) : ∀ c ∈ ('"' :: u).head?, Lexeme.isTextChar c = false := by
        intro c member
        cases member
        rfl
      rcases eq_of_append_eq_of_ends inside (closes rest) inside' (closes rest') bodies with
        ⟨rfl, behind⟩
      exact ⟨String.toList_injective (quoted.trans quoted'.symm), (List.cons.inj behind).2⟩

/-- Atoms with the same text were read from tokens of the same kind. -/
theorem kind_eq (legible : a.Legible) (legible' : b.Legible) (same : a.basic = b.basic) :
    a.token.kind = b.token.kind := by
  rcases legible.exists_first with ⟨c, cs, chars, kind, _⟩
  rcases legible'.exists_first with ⟨d, ds, chars', kind', _⟩
  rw [same, chars', List.cons.injEq] at chars
  rw [kind, kind', chars.1]

/-- Atoms with the same text differ at most in what a listing does not show. -/
theorem essence_eq (legible : a.Legible) (legible' : b.Legible) (same : a.basic = b.basic) :
    a.map .essence = b.map .essence := by
  -- the text tells the kind of token, so a name is never mistaken for a literal
  have kinds := legible.kind_eq legible' same
  cases a with
  | name n =>
    cases b with
    | name m =>
      have texts : n.text = m.text := same
      simp only [token] at kinds
      simp only [map, Change.essence, Token.unspelt, Token.unplaced, kinds, texts]
    | literal m =>
      rw [token, token, legible.kind_of_name, legible'.kind_of_literal] at kinds
      exact absurd kinds m.type.varName_ne_literalKind
  | literal l =>
    cases b with
    | name m =>
      rw [token, token, legible.kind_of_literal, legible'.kind_of_name] at kinds
      exact absurd kinds.symm l.type.varName_ne_literalKind
    | literal m =>
      have lexemes : l.token.lexeme = m.token.lexeme := same
      have types : l.type = m.type := by
        apply ValueType.literalKind_injective
        rw [← legible.kind_of_literal, ← legible'.kind_of_literal]
        exact kinds
      simp only [token] at kinds
      simp only [map, Change.essence, Token.unplaced, kinds, lexemes, types]

/-- The text of an atom ends where it cannot go on, and tells what the atom is. -/
theorem essence_eq_of_append_eq (legible : a.Legible) (legible' : b.Legible)
    {rest rest' : List Char} (ends : Ends rest) (ends' : Ends rest')
    (same : a.basic.toList ++ rest = b.basic.toList ++ rest') :
    a.map .essence = b.map .essence ∧ rest = rest' := by
  rcases legible.eq_of_append_eq legible' ends ends' same with ⟨texts, behind⟩
  exact ⟨legible.essence_eq legible' texts, behind⟩

end Atom.Legible

/-! ## Expressions -/

namespace UnaryOp

def opening : UnaryOp → String
  | not => "(NOT "
  | sqrt => "(SQRT ("

def closing : UnaryOp → String
  | not => ")"
  | sqrt => "))"

/-- What stands behind an operand does not go on like a name or a number. -/
theorem ends_closing (op : UnaryOp) (rest : List Char) : Ends (op.closing.toList ++ rest) := by
  cases op with
  | not => exact ends_cons rfl rest
  | sqrt => exact ends_cons rfl (')' :: rest)

/-- An operation with one operand starts with a bracket and the first letter of its word. -/
theorem exists_opening (op : UnaryOp) :
    ∃ c cs, op.opening.toList = '(' :: c :: cs ∧ (c = 'N' ∨ c = 'S') := by
  cases op with
  | not => exact ⟨'N', _, rfl, .inl rfl⟩
  | sqrt => exact ⟨'S', _, rfl, .inr rfl⟩

/-- The second characters tell the operators with one operand apart. -/
theorem eq_of_append_eq {op op' : UnaryOp} {rest rest' : List Char}
    (same : op.opening.toList ++ rest = op'.opening.toList ++ rest') : op = op' ∧ rest = rest' := by
  cases op with
  | not =>
    cases op' with
    | not => exact ⟨rfl, List.append_cancel_left same⟩
    | sqrt => simp [opening] at same
  | sqrt =>
    cases op' with
    | not => simp [opening] at same
    | sqrt => exact ⟨rfl, List.append_cancel_left same⟩

end UnaryOp

/-- The text up to the next blank tells an operator with two operands. -/
theorem BinaryOp.eq_of_append_eq {op op' : BinaryOp} {rest rest' : List Char}
    (same : op.basic.toList ++ ' ' :: rest = op'.basic.toList ++ ' ' :: rest') :
    op = op' ∧ rest = rest' := by
  have noBlank (o : BinaryOp) : ∀ c ∈ o.basic.toList, (c != ' ') = true := by
    cases o <;> simp [basic]
  have blank (u : List Char) : ∀ c ∈ (' ' :: u).head?, (c != ' ') = false := by simp
  rcases eq_of_append_eq_of_ends (noBlank op) (blank rest) (noBlank op') (blank rest') same with
    ⟨chars, behind⟩
  refine ⟨?_, (List.cons.inj behind).2⟩
  have texts : op.basic = op'.basic := String.toList_injective chars
  cases op <;> cases op' <;> first | rfl | (revert texts; decide)

/-- An operation with one operand is written around it. -/
theorem Expr.toList_unary (op : UnaryOp) (token : Token) (operand : Expr) (tag : Ty)
    (rest : List Char) :
    (Expr.unary op token operand tag).basic.toList ++ rest =
      op.opening.toList ++ (operand.basic.toList ++ (op.closing.toList ++ rest)) := by
  cases op with
  | not => simp [basic, UnaryOp.opening, UnaryOp.closing]
  | sqrt => simp [basic, UnaryOp.opening, UnaryOp.closing]

/-- An operation with two operands is written with the operator between them. -/
theorem Expr.toList_binary (op : BinaryOp) (token : Token) (left right : Expr) (tag : Ty)
    (rest : List Char) :
    (Expr.binary op token left right tag).basic.toList ++ rest =
      '(' :: (left.basic.toList ++ ' ' :: (op.basic.toList ++ ' ' ::
        (right.basic.toList ++ ')' :: rest))) := by
  simp [basic]

/-- The operators of the expression were read from tokens, its names are written as unique names and
its literals as in a text. -/
structure Expr.Legible (e : Expr) : Prop where
  spelt : ∃ ts, (e.mapNames Name.asRead).SpeltBy ts
  settled : Settled e.parts

namespace Expr.Legible

theorem atom {a : Atom} (legible : (Expr.atom a).Legible) : a.Legible := by
  rcases legible.spelt with ⟨ts, spelt⟩
  cases spelt with
  | atom spelt => exact ⟨⟨ts, spelt⟩, legible.settled⟩

/-- The operand of a legible operation is legible, and the token tells the operator. -/
theorem unary {op : UnaryOp} {token : Token} {operand : Expr} {tag : Ty}
    (legible : (Expr.unary op token operand tag).Legible) :
    token.kind = .operator (.unary op) ∧ operand.Legible := by
  rcases legible.spelt with ⟨ts, spelt⟩
  cases spelt with
  | unary kind _ inner _ =>
    exact ⟨kind, ⟨_, inner⟩, (List.forall_mem_cons.1 legible.settled).2⟩

/-- So are the two operands of an operation with two. -/
theorem binary {op : BinaryOp} {token : Token} {left right : Expr} {tag : Ty}
    (legible : (Expr.binary op token left right tag).Legible) :
    token.kind = .operator (.binary op) ∧ left.Legible ∧ right.Legible := by
  rcases legible.spelt with ⟨ts, spelt⟩
  cases spelt with
  | binary kind _ first _ second _ =>
    rcases List.forall_mem_append.1 (List.forall_mem_cons.1 legible.settled).2 with
      ⟨inFirst, inSecond⟩
    exact ⟨kind, ⟨⟨_, first⟩, inFirst⟩, ⟨⟨_, second⟩, inSecond⟩⟩

/-- No expression starts like the word of an operator with one operand. -/
theorem append_ne_opening {e : Expr} (legible : e.Legible) (op : UnaryOp)
    (rest inner : List Char) : '(' :: (e.basic.toList ++ rest) ≠ op.opening.toList ++ inner := by
  -- `NOT` and `SQR` start with capitals, which neither atoms nor bracketed operations do
  have first : ∃ c cs, e.basic.toList = c :: cs ∧ c ≠ 'N' ∧ c ≠ 'S' := by
    cases e with
    | atom a =>
      rcases legible.atom.exists_first with ⟨c, cs, chars, _, _, others⟩
      exact ⟨c, cs, chars, others⟩
    | unary op token operand tag =>
      rcases op.exists_opening with ⟨d, ds, opening, _⟩
      have chars := toList_unary op token operand tag []
      rw [List.append_nil, opening] at chars
      exact ⟨'(', _, chars, by decide⟩
    | binary op token left right tag =>
      have chars := toList_binary op token left right tag []
      rw [List.append_nil] at chars
      exact ⟨'(', _, chars, by decide⟩
  rcases first with ⟨c, cs, chars, notN, notS⟩
  rcases op.exists_opening with ⟨d, ds, opening, isWord⟩
  intro same
  rw [chars, opening] at same
  have second : c = d := (List.cons.inj (List.cons.inj same).2).1
  rcases isWord with rfl | rfl
  · exact notN second
  · exact notS second

/-- The text of an expression ends where it cannot go on, and tells what the expression is. -/
theorem essence_eq_of_append_eq {e e' : Expr} (legible : e.Legible) (legible' : e'.Legible)
    {rest rest' : List Char} (ends : Ends rest) (ends' : Ends rest')
    (same : e.basic.toList ++ rest = e'.basic.toList ++ rest') :
    e.map .essence = e'.map .essence ∧ rest = rest' := by
  -- an atom starts with no bracket, an operation does
  have notAtom {a : Atom} (isLegible : a.Legible) {u inner : List Char} {op : UnaryOp} :
      a.basic.toList ++ u ≠ op.opening.toList ++ inner := by
    rcases op.exists_opening with ⟨d, ds, opening, _⟩
    rw [opening]
    exact isLegible.append_ne_bracket u _
  induction e generalizing e' rest rest' with
  | atom a =>
    cases e' with
    | atom b =>
      rcases legible.atom.essence_eq_of_append_eq legible'.atom ends ends' same with ⟨atoms, behind⟩
      exact ⟨congrArg Expr.atom atoms, behind⟩
    | unary op token operand tag =>
      rw [toList_unary] at same
      exact absurd same (notAtom legible.atom)
    | binary op token left right tag =>
      rw [toList_binary] at same
      exact absurd same (legible.atom.append_ne_bracket rest _)
  | unary op token operand tag ih =>
    rw [toList_unary] at same
    rcases legible.unary with ⟨kind, inner⟩
    cases e' with
    | atom b => exact absurd same.symm (notAtom legible'.atom)
    | unary op' token' operand' tag' =>
      rw [toList_unary] at same
      rcases legible'.unary with ⟨kind', inner'⟩
      rcases UnaryOp.eq_of_append_eq same with ⟨rfl, operands⟩
      rcases ih inner inner' (op.ends_closing rest) (op.ends_closing rest') operands with
        ⟨operands, behind⟩
      refine ⟨?_, List.append_cancel_left behind⟩
      simp only [map, Change.essence, Token.unspelt, Token.unplaced, kind, kind'] at operands ⊢
      rw [operands]
    | binary op' token' left right tag' =>
      rw [toList_binary] at same
      exact absurd same.symm (legible'.binary.2.1.append_ne_opening op _ _)
  | binary op token left right tag ihLeft ihRight =>
    rw [toList_binary] at same
    rcases legible.binary with ⟨kind, first, second⟩
    cases e' with
    | atom b => exact absurd same.symm (legible'.atom.append_ne_bracket rest' _)
    | unary op' token' operand tag' =>
      rw [toList_unary] at same
      exact absurd same (first.append_ne_opening op' _ _)
    | binary op' token' left' right' tag' =>
      rw [toList_binary] at same
      rcases legible'.binary with ⟨kind', first', second'⟩
      -- the operands and the operator are read off one after the other
      rcases ihLeft first first' (ends_cons rfl _) (ends_cons rfl _) (List.cons.inj same).2 with
        ⟨lefts, behindLeft⟩
      rcases BinaryOp.eq_of_append_eq (List.cons.inj behindLeft).2 with ⟨rfl, behindOp⟩
      rcases ihRight second second' (ends_cons rfl _) (ends_cons rfl _) behindOp with
        ⟨rights, behind⟩
      refine ⟨?_, (List.cons.inj behind).2⟩
      simp only [map, Change.essence, Token.unspelt, Token.unplaced, kind, kind'] at lefts rights ⊢
      rw [lefts, rights]

end Expr.Legible

/-! ## Calls and terms -/

/-- A call is written with commas between its arguments. -/
theorem Call.toList_basic (c : Call) :
    c.basic.toList = c.callee.text.toList ++ '(' :: (c.args.first.basic.toList ++ ',' :: ' ' ::
      (c.args.second.basic.toList ++ ',' :: ' ' :: (c.args.third.basic.toList ++ [')']))) := by
  simp [basic, commaSeparated, Triple.map]

/-- The callee and the arguments of the call were read from tokens, its names are written as unique
names and its literals as in a text. -/
structure Call.Legible (c : Call) : Prop where
  spelt : ∃ ts, (c.mapNames Name.asRead Name.asRead).SpeltBy ts
  settled : Settled c.parts

namespace Call.Legible

variable {c d : Call}

/-- A callee was read from a token for functions. -/
theorem kind (legible : c.Legible) : c.callee.token.kind = .funName := by
  rcases c with ⟨⟨token, text, calleeTag⟩, args, tag⟩
  rcases legible.spelt with ⟨ts, spelt⟩
  cases spelt with
  | intro kind _ _ _ _ _ _ _ => exact kind

theorem callee (legible : c.Legible) : c.callee.Numbered :=
  legible.settled _ List.mem_cons_self

/-- The arguments of a legible call are legible. -/
theorem args (legible : c.Legible) : ∀ a ∈ c.args.toList, a.Legible := by
  have spelt : ∀ a ∈ c.args.toList, ∃ ts, (a.mapNames Name.asRead).SpeltBy ts := by
    rcases c with ⟨⟨token, text, calleeTag⟩, args, tag⟩
    rcases legible.spelt with ⟨ts, spelt⟩
    cases spelt with
    | intro _ _ first _ second _ third _ =>
      simp only [Triple.toList, List.forall_mem_cons, List.not_mem_nil, false_imp_iff, implies_true,
        and_true]
      exact ⟨⟨_, first⟩, ⟨_, second⟩, ⟨_, third⟩⟩
  intro a isArg
  refine ⟨spelt a isArg, fun part isPart => legible.settled part ?_⟩
  exact List.mem_cons_of_mem _ (List.mem_flatMap.2 ⟨a, isArg, isPart⟩)

/-- The text of a call tells what the call is. -/
theorem essence_eq (legible : c.Legible) (legible' : d.Legible) (same : c.basic = d.basic) :
    c.map .essence = d.map .essence := by
  have applied : some c.callee.text = some d.callee.text := by
    rw [← Call.appliedName?_basic legible.callee, same, Call.appliedName?_basic legible'.callee]
  have callees : c.callee.text = d.callee.text := Option.some.inj applied
  have chars : c.basic.toList = d.basic.toList := by rw [same]
  rw [toList_basic, toList_basic, callees] at chars
  -- every argument ends at a comma or at the bracket
  have each := legible.args
  have each' := legible'.args
  simp only [Triple.toList, List.forall_mem_cons] at each each'
  rcases each.1.essence_eq_of_append_eq each'.1 (ends_cons rfl _) (ends_cons rfl _)
    (List.cons.inj (List.append_cancel_left chars)).2 with ⟨firsts, behind⟩
  rcases each.2.1.essence_eq_of_append_eq each'.2.1 (ends_cons rfl _) (ends_cons rfl _)
    (List.cons.inj (List.cons.inj behind).2).2 with ⟨seconds, behind⟩
  rcases each.2.2.1.essence_eq_of_append_eq each'.2.2.1 (ends_cons rfl _) (ends_cons rfl _)
    (List.cons.inj (List.cons.inj behind).2).2 with ⟨thirds, _⟩
  have names : Change.essence.onFunction c.callee = Change.essence.onFunction d.callee := by
    simp only [Change.essence, Token.unspelt, Token.unplaced, legible.kind, legible'.kind, callees]
  rw [map, map, names, Triple.map, Triple.map, firsts, seconds, thirds]
  rfl

end Call.Legible

/-- The term was read from tokens, its names are written as unique names and its literals as in a
text. -/
inductive Term.Legible : Term → Prop
  | expr {e : Expr} : e.Legible → Term.Legible (.expr e)
  | call {c : Call} : c.Legible → Term.Legible (.call c)

/-- The text of a term tells what the term is. -/
theorem Term.Legible.essence_eq {s t : Term} (legible : s.Legible) (legible' : t.Legible)
    (same : s.basic = t.basic) : s.essence = t.essence := by
  -- a call starts with a name in front of a bracket, and no expression does
  have apart {e : Expr} {c : Call} (isExpr : e.Legible) (isCall : c.Legible) :
      e.basic ≠ c.basic := by
    intro same
    have nothing := Expr.appliedName?_basic isExpr.settled
    rw [same, Call.appliedName?_basic isCall.callee] at nothing
    cases nothing
  cases legible with
  | @expr e isExpr =>
    cases legible' with
    | @expr e' isExpr' =>
      have chars : e.basic.toList ++ [] = e'.basic.toList ++ [] := congrArg (·.toList ++ []) same
      have essences := (isExpr.essence_eq_of_append_eq isExpr' ends_nil ends_nil chars).1
      exact congrArg Term.expr essences
    | call isCall' => exact absurd same (apart isExpr isCall')
  | call isCall =>
    cases legible' with
    | expr isExpr' => exact absurd same.symm (apart isExpr' isCall)
    | call isCall' => exact congrArg Term.call (isCall.essence_eq isCall' same)

/-! ## What is not shown does not change the text -/

/-- Taking away what is not shown keeps what is shown. -/
theorem Change.essence_keeps (parts : List Part) : Change.essence.Keeps parts := by
  intro part _
  cases part with
  | word t => rfl
  | «variable» n => rfl
  | function n => rfl
  | literal l => rfl

/-- What is not shown does not change the text. -/
theorem Term.basic_essence (t : Term) : t.essence.basic = t.basic :=
  basic_map (Change.essence_keeps _)

/-- Terms that differ in tags only have the same text and the same essence. -/
theorem Term.essence_eq_of_untag_eq {s t : Term} (same : s.map .untag = t.map .untag) :
    s.basic = t.basic ∧ s.essence = t.essence := by
  have texts (u : Term) : (u.map .untag).basic = u.basic := basic_map (Change.untag_keeps _)
  have essences (u : Term) : (u.map .untag).map .essence = u.essence := u.map_map .untag .essence
  constructor
  · rw [← texts s, same, texts]
  · rw [← essences s, same, essences]

/-! ## Terms of compiled programs are legible -/

/-- All operands of a legible expression are legible. -/
theorem Expr.Legible.terms {e : Expr} (legible : e.Legible) : ∀ t ∈ e.terms, t.Legible := by
  induction e with
  | atom a => exact List.forall_mem_singleton.2 (.expr legible)
  | unary op token operand tag ih =>
    exact List.forall_mem_cons.2 ⟨.expr legible, ih legible.unary.2⟩
  | binary op token left right tag ihLeft ihRight =>
    rcases legible.binary with ⟨_, first, second⟩
    refine List.forall_mem_cons.2 ⟨.expr legible, List.forall_mem_append.2 ?_⟩
    exact ⟨ihLeft first, ihRight second⟩

theorem Atom.Legible.expr {a : Atom} (legible : a.Legible) : (Expr.atom a).Legible := by
  rcases legible.spelt with ⟨ts, spelt⟩
  exact ⟨⟨ts, .atom spelt⟩, legible.settled⟩

theorem Call.Legible.terms {c : Call} (legible : c.Legible) : ∀ t ∈ c.terms, t.Legible := by
  refine List.forall_mem_cons.2 ⟨.call legible, ?_⟩
  rw [List.forall_mem_map]
  intro a isArg
  exact .expr (legible.args a isArg).expr

/-- The terms of a settled command are legible. -/
theorem SimpleCommand.legible_terms {command : SimpleCommand} {ts : List Token}
    (spelt : (command.mapNames Name.asRead Name.asRead).SpeltBy ts)
    (settled : Settled command.parts) : ∀ t ∈ command.terms, t.Legible := by
  have ofAtom {a : Atom} {ts : List Token} (spelt : (a.mapNames Name.asRead).SpeltBy ts)
      (settled : Settled a.parts) : ∀ t ∈ [Term.expr (.atom a)], t.Legible :=
    List.forall_mem_singleton.2 (.expr (Atom.Legible.mk ⟨ts, spelt⟩ settled).expr)
  cases command with
  | skip keyword => exact List.forall_mem_nil _
  | halt keyword => exact List.forall_mem_nil _
  | print keyword value =>
    cases spelt with
    | print _ spelt => exact ofAtom spelt (List.forall_mem_cons.1 settled).2
  | giveBack keyword value =>
    cases spelt with
    | giveBack _ spelt => exact ofAtom spelt (List.forall_mem_cons.1 settled).2
  | read target keyword => exact List.forall_mem_nil _
  | assign target value =>
    have inside : Settled value.parts := (List.forall_mem_cons.1 settled).2
    rcases target with ⟨token, text, tag⟩
    cases spelt with
    | assign _ _ spelt =>
      cases value with
      | expr e =>
        cases spelt with
        | expr spelt => exact Expr.Legible.terms ⟨⟨_, spelt⟩, inside⟩
      | call c =>
        cases spelt with
        | call spelt => exact Call.Legible.terms ⟨⟨_, spelt⟩, inside⟩
  | call c =>
    cases spelt with
    | call spelt => exact Call.Legible.terms ⟨⟨_, spelt⟩, settled⟩

/-- The terms of settled commands are legible, in all blocks inside them. -/
theorem Commands.legible_terms {cs : Commands} {ts : List Token}
    (spelt : (cs.mapNames Name.asRead Name.asRead).SpeltBy ts)
    (settled : Settled cs.parts) : ∀ t ∈ cs.terms, t.Legible := by
  induction cs generalizing ts with
  | nil => exact List.forall_mem_nil _
  | simple command tag rest ih =>
    cases spelt with
    | simple command _ rest =>
      rcases List.forall_mem_append.1 settled with ⟨here, behind⟩
      exact List.forall_mem_append.2 ⟨SimpleCommand.legible_terms command here, ih rest behind⟩
  | ifThen keyword condition brackets body tag rest ihBody ihRest =>
    cases spelt with
    | ifThen _ _ isCondition _ _ isBody _ _ isRest =>
      simp only [Settled, parts, List.forall_mem_cons, List.forall_mem_append] at settled
      rcases settled with ⟨_, ⟨inCondition, inBody⟩, behind⟩
      simp only [terms, List.forall_mem_append]
      exact ⟨⟨Expr.Legible.terms ⟨⟨_, isCondition⟩, inCondition⟩, ihBody isBody inBody⟩,
        ihRest isRest behind⟩
  | ifThenElse keyword condition thenBrackets thenBody elseBrackets elseBody tag rest ihThen ihElse
      ihRest =>
    cases spelt with
    | ifThenElse _ _ isCondition _ _ isThen _ _ _ isElse _ _ isRest =>
      simp only [Settled, parts, List.forall_mem_cons, List.forall_mem_append] at settled
      rcases settled with ⟨_, ⟨⟨inCondition, inThen⟩, inElse⟩, behind⟩
      simp only [terms, List.forall_mem_append]
      exact ⟨⟨⟨Expr.Legible.terms ⟨⟨_, isCondition⟩, inCondition⟩, ihThen isThen inThen⟩,
        ihElse isElse inElse⟩, ihRest isRest behind⟩

theorem Program.SpeltBy.exists_commands {p : Program} {ts : List Token} (spelt : p.SpeltBy ts) :
    ∀ b ∈ p.block :: p.functions.toList.map FunctionDecl.body, ∃ us, b.commands.SpeltBy us := by
  intro b isBlock
  rcases spelt.exists_block isBlock with ⟨_, _, block⟩
  cases block with
  | intro _ commands _ => exact ⟨_, commands⟩

/-- The blocks of a resolved program were read from the same tokens as before. -/
theorem exists_commands_of_region {p : Program} {ts : List Token} (spelt : p.SpeltBy ts) :
    ∀ r ∈ (p.bindNames p.scopeTree).regions,
      ∃ us, (r.block.commands.mapNames Name.asRead Name.asRead).SpeltBy us := by
  intro r isRegion
  have isBlock : r.block ∈ (p.bindNames p.scopeTree).block ::
      (p.bindNames p.scopeTree).functions.toList.map FunctionDecl.body := by
    rw [← Program.map_block_regions]
    exact List.mem_map_of_mem isRegion
  have unchanged : (p.bindNames p.scopeTree).asRead = p := by
    rw [Program.asRead_bindNames, spelt.asRead]
  have original := spelt.exists_commands
  rw [← unchanged] at original
  simp only [Program.asRead, Forest.toList_map, List.map_map, List.forall_mem_cons,
    List.forall_mem_map] at original
  rcases List.mem_cons.1 isBlock with isMain | isBody
  · rw [isMain]
    exact original.1
  · rcases List.mem_map.1 isBody with ⟨f, isFunction, body⟩
    rw [← body]
    exact original.2 f isFunction

/-- The terms of a program that is read from a text and resolved are legible. -/
theorem legible_of_parse {text file : String} {tokens : List Token} {p : Program}
    (read : tokenize text file = .ok tokens) (parsed : parse tokens = .ok p)
    (clean : p.scopeProblems p.scopeTree = []) :
    ∀ t ∈ (p.bindNames p.scopeTree).terms, t.Legible := by
  intro t member
  have inRegion : ∃ r ∈ (p.bindNames p.scopeTree).regions, t ∈ r.block.commands.terms := by
    have listed : t ∈ ((p.bindNames p.scopeTree).regions.map Region.block).flatMap
        fun b => b.commands.terms := by
      rw [Program.map_block_regions, List.flatMap_cons, List.flatMap_map]
      exact member
    rcases List.mem_flatMap.1 listed with ⟨b, isBlock, inBlock⟩
    rcases List.mem_map.1 isBlock with ⟨r, isRegion, rfl⟩
    exact ⟨r, isRegion, inBlock⟩
  rcases inRegion with ⟨r, isRegion, inBlock⟩
  rcases exists_commands_of_region (spelt_of_parse parsed) r isRegion with ⟨us, spelt⟩
  exact Commands.legible_terms spelt (settled_of_parse read parsed clean r isRegion) t inBlock

/-- A term of a compiled program differs from a legible one in tags only. -/
theorem exists_legible_of_compile {text file : String} {c : Compilation}
    (compiled : compile text file = .ok c) {t : Term} (member : t ∈ c.program.terms) :
    ∃ u : Term, u.Legible ∧ u.basic = t.basic ∧ u.essence = t.essence := by
  rcases exists_tokens_of_compile compiled with ⟨tokens, read, fromTokens⟩
  rcases exists_program_of_compileTokens fromTokens with ⟨p, parsed, fromProgram⟩
  rcases compileProgram_eq_ok fromProgram with ⟨clean, _, rfl⟩
  have untagged := List.mem_map_of_mem (f := Term.map .untag) member
  rw [← Program.terms_map, ← Program.untag, Program.untag_annotate, Program.untag,
    Program.terms_map] at untagged
  rcases List.mem_map.1 untagged with ⟨u, original, same⟩
  exact ⟨u, legible_of_parse read parsed clean u original, Term.essence_eq_of_untag_eq same⟩

/-- Two terms of compiled programs have the same text exactly if they have the same shape, the same
operators, literals and unique names. -/
theorem basic_eq_iff_essence_eq {text file text' file' : String} {c c' : Compilation}
    (compiled : compile text file = .ok c) (compiled' : compile text' file' = .ok c')
    {s t : Term} (ofFirst : s ∈ c.program.terms) (ofSecond : t ∈ c'.program.terms) :
    s.basic = t.basic ↔ s.essence = t.essence := by
  rcases exists_legible_of_compile compiled ofFirst with ⟨u, legible, texts, essences⟩
  rcases exists_legible_of_compile compiled' ofSecond with ⟨v, legible', texts', essences'⟩
  constructor
  · intro same
    rw [← essences, ← essences']
    apply legible.essence_eq legible'
    rw [texts, texts', same]
  · intro same
    calc s.basic = s.essence.basic := s.basic_essence.symm
      _ = t.essence.basic := by rw [same]
      _ = t.basic := t.basic_essence

/-- A text with one variable that is compared to one. -/
def comparisonSource (operator variableName : String) : String :=
  "main num " ++ variableName ++ " begin if " ++ operator ++ "(" ++ variableName
    ++ ",1)then begin end end"

/-- Both words for the comparison, and both names of the variable, are written alike. -/
theorem basic_eq_iff_essence_eq_comparisonSource :
    ∃ c c' s t, compile (comparisonSource "gt" "V_a") "a.spl" = .ok c ∧
      compile (comparisonSource "grt" "V_bc") "b.spl" = .ok c' ∧
      s ∈ c.program.terms ∧ t ∈ c'.program.terms ∧
      s.uses.map (·.kinded.name.source) = ["V_a"] ∧ t.uses.map (·.kinded.name.source) = ["V_bc"] ∧
      s.basic = "(v1 > 1)" ∧ t.basic = "(v1 > 1)" ∧ s.essence = t.essence := by
  let shows (source : String) (t : Term) : Bool :=
    t.uses.map (·.kinded.name.source) = [source] && t.basic = "(v1 > 1)"
  have compiles (text file source : String)
      (passes : (compile text file).toOption.any (·.program.terms.any (shows source)) = true) :
      ∃ c t, compile text file = .ok c ∧ t ∈ c.program.terms ∧
        t.uses.map (·.kinded.name.source) = [source] ∧ t.basic = "(v1 > 1)" := by
    cases compiled : compile text file with
    | error e =>
      rw [compiled] at passes
      cases passes
    | ok c =>
      rw [compiled] at passes
      rcases List.any_eq_true.1 passes with ⟨t, member, shown⟩
      simp only [shows, Bool.and_eq_true, decide_eq_true_eq] at shown
      exact ⟨c, t, rfl, member, shown⟩
  rcases compiles (comparisonSource "gt" "V_a") "a.spl" "V_a"
    (by decide +kernel) with ⟨c, s, compiled, ofFirst, spelt, written⟩
  rcases compiles (comparisonSource "grt" "V_bc") "b.spl" "V_bc"
    (by decide +kernel) with ⟨c', t, compiled', ofSecond, spelt', written'⟩
  refine ⟨c, c', s, t, compiled, compiled', ofFirst, ofSecond, spelt, spelt', written, written', ?_⟩
  exact (basic_eq_iff_essence_eq compiled compiled' ofFirst ofSecond).1
    (written.trans written'.symm)

end SplBasic
