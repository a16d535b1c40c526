import Mathlib.Data.List.Basic
import SplBasic.Program.Parser

/-!
# The grammar

The grammar of programs as relations between trees and the tokens that spell them. Nothing here
mentions parsing: each constructor is a production, and its tokens stand in the order in which they
are written.

* `seenTokens`, `closingMark` : which tokens of a list the grammar is about, and what ends them,
* `Atom.SpeltBy`, `Expr.SpeltBy`, `Call.SpeltBy`, `Term.SpeltBy` : expressions,
* `SimpleCommand.SpeltBy`, `Commands.SpeltBy`, `Block.SpeltBy` : commands,
* `VarDecl.SpeltBy`, `GlobalsSpeltBy`, `FunctionsSpeltBy`, `Program.SpeltBy` : declarations.

Names have the text of their tokens and nothing has a type yet.
-/

namespace SplBasic

namespace Token

def IsSign (t : Token) (sign : Punctuation) : Prop :=
  t.kind = .punctuation sign

def IsWord (t : Token) (word : Keyword) : Prop :=
  t.kind = .keyword word

end Token

/-! ## What the grammar sees -/

/-- The tokens of a list that have to spell a program: those before the first end mark, without
trivia. -/
def seenTokens : List Token → List Token
  | [] => []
  | t :: rest =>
    if t.kind = .eof then []
    else if t.kind = .trivia then seenTokens rest
    else t :: seenTokens rest

/-- The end mark of a list: the first that stands in it, or else one right behind the last token.
`last` is the token in front of the list. -/
def closingMark : (last : Option Token) → List Token → Token
  | none, [] => ⟨.eof, "<input>", .start, ""⟩
  | some last, [] => ⟨.eof, last.file, ⟨last.pos.line, last.pos.column + last.lexeme.length⟩, ""⟩
  | _, t :: rest => if t.kind = .eof then t else closingMark (some t) rest

/-! ## Expressions -/

inductive Atom.SpeltBy : Atom → List Token → Prop
  | variable {t : Token} : t.kind = .varName → SpeltBy (.name (.ofToken t)) [t]
  | number {t : Token} : t.kind = .numLit → SpeltBy (.literal ⟨t, .num, .unknown⟩) [t]
  | text {t : Token} : t.kind = .textLit → SpeltBy (.literal ⟨t, .text, .unknown⟩) [t]

inductive Expr.SpeltBy : Expr → List Token → Prop
  | atom {a : Atom} {ts : List Token} : a.SpeltBy ts → SpeltBy (.atom a) ts
  | unary {op : UnaryOp} {t l r : Token} {operand : Expr} {ts : List Token} :
      t.kind = .operator (.unary op) → l.IsSign .lparen → SpeltBy operand ts → r.IsSign .rparen →
      SpeltBy (.unary op t operand .unknown) (t :: l :: (ts ++ [r]))
  | binary {op : BinaryOp} {t l c r : Token} {left right : Expr} {ts ts' : List Token} :
      t.kind = .operator (.binary op) → l.IsSign .lparen → SpeltBy left ts → c.IsSign .comma →
      SpeltBy right ts' → r.IsSign .rparen →
      SpeltBy (.binary op t left right .unknown) (t :: l :: (ts ++ c :: (ts' ++ [r])))

/-- Operations as opposed to atoms. -/
def Expr.IsOperation : Expr → Prop
  | .atom _ => False
  | _ => True

inductive Call.SpeltBy : Call → List Token → Prop
  | intro {t l c d r : Token} {first second third : Atom} {ts ts' ts'' : List Token} :
      t.kind = .funName → l.IsSign .lparen → first.SpeltBy ts → c.IsSign .comma →
      second.SpeltBy ts' → d.IsSign .comma → third.SpeltBy ts'' → r.IsSign .rparen →
      SpeltBy ⟨.ofToken t, ⟨first, second, third⟩, .unknown⟩
        (t :: l :: (ts ++ c :: (ts' ++ d :: (ts'' ++ [r]))))

inductive Term.SpeltBy : Term → List Token → Prop
  | expr {e : Expr} {ts : List Token} : e.SpeltBy ts → SpeltBy (.expr e) ts
  | call {c : Call} {ts : List Token} : c.SpeltBy ts → SpeltBy (.call c) ts

/-! ## Commands -/

inductive SimpleCommand.SpeltBy : SimpleCommand → List Token → Prop
  | skip {t : Token} : t.IsWord .skipWord → SpeltBy (.skip t) [t]
  | halt {t : Token} : t.IsWord .haltWord → SpeltBy (.halt t) [t]
  | print {t : Token} {value : Atom} {ts : List Token} :
      t.IsWord .printWord → value.SpeltBy ts → SpeltBy (.print t value) (t :: ts)
  | giveBack {t : Token} {value : Atom} {ts : List Token} :
      t.IsWord .returnWord → value.SpeltBy ts → SpeltBy (.giveBack t value) (t :: ts)
  | read {t less keyword : Token} :
      t.kind = .varName → less.IsSign .less → keyword.IsWord .inputWord →
      SpeltBy (.read (.ofToken t) keyword) [t, less, keyword]
  | assign {t equals : Token} {value : Term} {ts : List Token} :
      t.kind = .varName → equals.IsSign .assign → value.SpeltBy ts →
      SpeltBy (.assign (.ofToken t) value) (t :: equals :: ts)
  | call {c : Call} {ts : List Token} : c.SpeltBy ts → SpeltBy (.call c) ts

/-- What stands between a command and the commands behind it: a semicolon, which may be left out at
the end of a block. -/
def Separates (separator behind : List Token) : Prop :=
  separator = [] ∧ behind = [] ∨ ∃ t : Token, t.IsSign .semicolon ∧ separator = [t]

inductive Commands.SpeltBy : Commands → List Token → Prop
  | nil : SpeltBy .nil []
  | simple {command : SimpleCommand} {rest : Commands} {ts separator behind : List Token} :
      command.SpeltBy ts → Separates separator behind → SpeltBy rest behind →
      SpeltBy (.simple command .unknown rest) (ts ++ (separator ++ behind))
  | ifThen {keyword thenWord opening closing : Token} {condition : Expr} {body rest : Commands}
      {ts bodyTokens separator behind : List Token} :
      keyword.IsWord .ifWord → condition.IsOperation → condition.SpeltBy ts →
      thenWord.IsWord .thenWord →
      opening.IsWord .beginWord → SpeltBy body bodyTokens → closing.IsWord .endWord →
      Separates separator behind → SpeltBy rest behind →
      SpeltBy (.ifThen keyword condition ⟨opening, closing⟩ body .unknown rest)
        (keyword :: (ts ++ thenWord :: opening :: (bodyTokens ++ closing :: (separator ++ behind))))
  | ifThenElse {keyword thenWord opening closing elseWord elseOpening elseClosing : Token}
      {condition : Expr} {thenBody elseBody rest : Commands}
      {ts thenTokens elseTokens separator behind : List Token} :
      keyword.IsWord .ifWord → condition.IsOperation → condition.SpeltBy ts →
      thenWord.IsWord .thenWord →
      opening.IsWord .beginWord → SpeltBy thenBody thenTokens → closing.IsWord .endWord →
      elseWord.IsWord .elseWord →
      elseOpening.IsWord .beginWord → SpeltBy elseBody elseTokens → elseClosing.IsWord .endWord →
      Separates separator behind → SpeltBy rest behind →
      SpeltBy (.ifThenElse keyword condition ⟨opening, closing⟩ thenBody
          ⟨elseOpening, elseClosing⟩ elseBody .unknown rest)
        (keyword :: (ts ++ thenWord :: opening :: (thenTokens ++ closing :: elseWord :: elseOpening
          :: (elseTokens ++ elseClosing :: (separator ++ behind)))))

inductive Block.SpeltBy : Block → List Token → Prop
  | intro {opening closing : Token} {commands : Commands} {ts : List Token} :
      opening.IsWord .beginWord → commands.SpeltBy ts → closing.IsWord .endWord →
      SpeltBy ⟨⟨opening, closing⟩, commands⟩ (opening :: (ts ++ [closing]))

/-! ## Declarations -/

inductive VarDecl.SpeltBy : VarDecl → List Token → Prop
  | intro {typeToken t : Token} {type : ValueType} :
      ValueType.ofKind? typeToken.kind = some type → t.kind = .varName →
      SpeltBy ⟨typeToken, type, .ofToken t⟩ [typeToken, t]

/-- Globals with commas between them; a comma may also stand behind the last one. -/
inductive GlobalsSpeltBy : List VarDecl → List Token → Prop
  | nil : GlobalsSpeltBy [] []
  | last {decl : VarDecl} {ts : List Token} : decl.SpeltBy ts → GlobalsSpeltBy [decl] ts
  | more {decl : VarDecl} {c : Token} {rest : List VarDecl} {ts ts' : List Token} :
      decl.SpeltBy ts → c.IsSign .comma → GlobalsSpeltBy rest ts' →
      GlobalsSpeltBy (decl :: rest) (ts ++ c :: ts')

/-- A function up to its closing brace. -/
inductive FunctionDecl.HeadSpeltBy : FunctionDecl → List Token → Prop
  | intro {returnToken name lparen param param' param'' comma comma' rparen lbrace localComma
      localComma' localComma'' rbrace closing : Token} {type : ReturnType}
      {decl decl' decl'' : VarDecl} {body : Block} {ts ts' ts'' bodyTokens : List Token} :
      ReturnType.ofKind? returnToken.kind = some type → name.kind = .funName →
      lparen.IsSign .lparen → param.kind = .varName → comma.IsSign .comma →
      param'.kind = .varName → comma'.IsSign .comma → param''.kind = .varName →
      rparen.IsSign .rparen → lbrace.IsSign .lbrace →
      decl.SpeltBy ts → localComma.IsSign .comma → decl'.SpeltBy ts' →
      localComma'.IsSign .comma → decl''.SpeltBy ts'' → localComma''.IsSign .comma →
      body.SpeltBy bodyTokens → rbrace.IsSign .rbrace →
      HeadSpeltBy ⟨returnToken, type, .ofToken name,
          ⟨.ofToken param, .ofToken param', .ofToken param''⟩, ⟨decl, decl', decl''⟩, body, closing⟩
        (returnToken :: name :: lparen :: param :: comma :: param' :: comma' :: param'' :: rparen
          :: lbrace :: (ts ++ localComma :: (ts' ++ localComma' :: (ts'' ++ localComma''
            :: (bodyTokens ++ [rbrace])))))

/-- Functions one after the other, each with its inner functions before its closing word. -/
inductive FunctionsSpeltBy : Forest FunctionDecl → List Token → Prop
  | nil : FunctionsSpeltBy .nil []
  | cons {f : FunctionDecl} {inner rest : Forest FunctionDecl} {head ts ts' : List Token} :
      f.HeadSpeltBy head → FunctionsSpeltBy inner ts → f.closing.IsWord .endWord →
      FunctionsSpeltBy rest ts' →
      FunctionsSpeltBy (.cons f inner rest) (head ++ (ts ++ f.closing :: ts'))

inductive Program.SpeltBy : Program → List Token → Prop
  | intro {main : Token} {globals : List VarDecl} {block : Block} {functions : Forest FunctionDecl}
      {source : SourceText} {ts ts' ts'' : List Token} :
      main.IsWord .mainWord → GlobalsSpeltBy globals ts → block.SpeltBy ts' →
      FunctionsSpeltBy functions ts'' →
      SpeltBy ⟨main, globals, block, functions, source⟩ (main :: (ts ++ (ts' ++ ts'')))

end SplBasic
