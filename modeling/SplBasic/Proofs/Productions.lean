import Mathlib.Computability.ContextFreeGrammar
import Mathlib.Order.CompletePartialOrder
import SplBasic.ParseTree
import SplBasic.Proofs.Grammar

/-!
# The grammar as productions

`grammar` is the context-free grammar of programs over token kinds, one production for each
alternative:

```text
PROG      := main GLOBVARS ALGO FUNCTIONS
GLOBVARS  := (num|text) VNAME ("," GLOBVARS)? | ε
ALGO      := begin INSTRUC end
INSTRUC   := COMMAND ";" INSTRUC | COMMAND | ε
COMMAND   := skip | halt | print ATOMIC | return ATOMIC | ASSIGN | CALL | BRANCH
ASSIGN    := VNAME ("<" input | "=" TERM)
TERM      := CONST | VNAME | CALL | OP
CALL      := FNAME "(" ATOMIC "," ATOMIC "," ATOMIC ")"
BRANCH    := if COND then ALGO (else ALGO)?
COND, OP  := UNOP "(" ARG ")" | BINOP "(" ARG "," ARG ")"
ARG       := ATOMIC | OP
ATOMIC    := VNAME | CONST
CONST     := NUMLIT | TEXTLIT
FUNCTIONS := DECL FUNCTIONS | ε
DECL      := HEADER BODY
HEADER    := (num|text|void) FNAME "(" VNAME "," VNAME "," VNAME ")"
BODY      := "{" LOCALVARS ALGO "}" FUNCTIONS end
LOCALVARS := ((num|text) VNAME ","){3}
```

A derivation rewrites nonterminals in any order. What is needed of it here is that the languages of
the nonterminals are the least ones that the productions are closed under:

* `ContextFreeGrammar.meaning_le_of_derives` : languages closed under the rules contain what is
  derived,
* `ContextFreeGrammar.meaning_le_sentences` : the derived languages are closed under the rules.
-/

namespace ContextFreeGrammar

/-! ## Languages of symbols -/

/-- Strings of terminals and nonterminals. -/
abbrev Form (T N : Type) :=
  List (Symbol T N)

variable {T N A : Type}

/-- The language of a symbol, given languages for terminals and nonterminals. -/
def symbolMeaning (terminals : T → Language A) (nonterminals : N → Language A) :
    Symbol T N → Language A
  | .terminal t => terminals t
  | .nonterminal n => nonterminals n

/-- The language of a string of symbols: words of its symbols one after the other. -/
def meaning (terminals : T → Language A) (nonterminals : N → Language A) (u : Form T N) :
    Language A :=
  (u.map (symbolMeaning terminals nonterminals)).prod

variable {terminals : T → Language A} {nonterminals : N → Language A}

@[simp] theorem meaning_nil : meaning terminals nonterminals [] = 1 := rfl

@[simp] theorem meaning_append (u v : Form T N) :
    meaning terminals nonterminals (u ++ v) =
      meaning terminals nonterminals u * meaning terminals nonterminals v := by
  simp [meaning]

@[simp] theorem meaning_terminal (t : T) :
    meaning terminals nonterminals [.terminal t] = terminals t := by
  simp [meaning, symbolMeaning]

@[simp] theorem meaning_nonterminal (n : N) :
    meaning terminals nonterminals [.nonterminal n] = nonterminals n := by
  simp [meaning, symbolMeaning]

variable {g : ContextFreeGrammar T}

/-- Rewriting a string by rules that hold of some languages only leads to words of those
languages. -/
theorem meaning_le_of_derives {nonterminals : g.NT → Language A}
    (closed : ∀ r ∈ g.rules, meaning terminals nonterminals r.output ≤ nonterminals r.input)
    {u v : Form T g.NT} (derives : g.Derives u v) :
    meaning terminals nonterminals v ≤ meaning terminals nonterminals u := by
  induction derives with
  | refl => exact le_rfl
  | tail _ produces ih =>
    rcases produces with ⟨r, isRule, rewrites⟩
    rcases ContextFreeRule.rewrites_iff.1 rewrites with ⟨before, behind, rfl, rfl⟩
    refine le_trans ?_ ih
    simp only [meaning_append, meaning_nonterminal]
    exact mul_le_mul' (mul_le_mul' le_rfl (closed r isRule)) le_rfl

/-- The words that a nonterminal derives. -/
def sentences (g : ContextFreeGrammar T) (n : g.NT) : Language T :=
  {w | g.Derives [.nonterminal n] (w.map .terminal)}

/-- Words of the symbols of a string are derived from the string, symbol by symbol. -/
theorem derives_of_mem_meaning {u : Form T g.NT} {w : List T}
    (member : w ∈ meaning (fun t => {[t]}) g.sentences u) : g.Derives u (w.map .terminal) := by
  induction u generalizing w with
  | nil =>
    rw [meaning_nil, Language.mem_one] at member
    subst member
    exact Derives.refl _
  | cons s u ih =>
    rcases member with ⟨first, inFirst, rest, inRest, rfl⟩
    have head : g.Derives [s] (first.map .terminal) := by
      cases s with
      | terminal t =>
        have same : first = [t] := inFirst
        subst same
        exact Derives.refl _
      | nonterminal n => exact inFirst
    have tail : g.Derives u (rest.map .terminal) := ih inRest
    simpa using (head.append_right u).trans (tail.append_left (first.map .terminal))

/-- The derived languages are closed under the rules. -/
theorem meaning_le_sentences {r : ContextFreeRule T g.NT} (isRule : r ∈ g.rules) :
    meaning (fun t => {[t]}) g.sentences r.output ≤ g.sentences r.input := by
  intro w member
  have produces : g.Produces [.nonterminal r.input] r.output := ⟨r, isRule, .input_output⟩
  exact produces.trans_derives (derives_of_mem_meaning member)

end ContextFreeGrammar

namespace SplBasic

/-! ## Productions -/

/-- Strings of token kinds and grammar symbols. -/
abbrev Production :=
  ContextFreeGrammar.Form TokenKind GrammarSymbol

namespace Production

def token (kind : TokenKind) : Production :=
  [.terminal kind]

def word (k : Keyword) : Production :=
  token (.keyword k)

def sign (s : Punctuation) : Production :=
  token (.punctuation s)

/-- A part with a grammar symbol of its own. -/
def part (s : GrammarSymbol) : Production :=
  [.nonterminal s]

def valueTypes : List Production :=
  [word .numWord, word .textWord]

def returnTypes : List Production :=
  valueTypes ++ [word .voidWord]

/-- What stands between the brackets of an operator. -/
def operands : Operator → Production
  | .unary _ => part .operand
  | .binary _ => part .operand ++ sign .comma ++ part .operand

/-- The alternatives for an operation, one for each operator. -/
def operations : List Production :=
  Operator.all.map fun op =>
    token (.operator op) ++ sign .lparen ++ operands op ++ sign .rparen

/-- A declared local. -/
def localDecl (type : Production) : Production :=
  type ++ token .varName ++ sign .comma

end Production

open Production in
/-- The alternatives of each grammar symbol. `FUNCTIONS` can be empty, so that a body needs no
alternative without inner functions. -/
def productions : GrammarSymbol → List Production
  | .program => [word .mainWord ++ part .globals ++ part .block ++ part .functions]
  | .globals =>
    [] :: valueTypes.flatMap fun type =>
      [type ++ token .varName, type ++ token .varName ++ sign .comma ++ part .globals]
  | .block => [word .beginWord ++ part .commands ++ word .endWord]
  | .commands =>
    [[], part .command, part .command ++ sign .semicolon ++ part .commands]
  | .command =>
    [word .skipWord, word .haltWord, word .printWord ++ part .atom, word .returnWord ++ part .atom,
      part .assign, part .call, part .branch]
  | .assign =>
    [token .varName ++ sign .less ++ word .inputWord, token .varName ++ sign .assign ++ part .term]
  | .call =>
    [token .funName ++ sign .lparen ++ part .atom ++ sign .comma ++ part .atom ++ sign .comma
      ++ part .atom ++ sign .rparen]
  | .branch =>
    [word .ifWord ++ part .condition ++ word .thenWord ++ part .block,
      word .ifWord ++ part .condition ++ word .thenWord ++ part .block ++ word .elseWord
        ++ part .block]
  | .term => [part .constant, token .varName, part .call, part .operation]
  | .operation => operations
  | .condition => operations
  | .operand => [part .atom, part .operation]
  | .atom => [token .varName, part .constant]
  | .constant => [token .numLit, token .textLit]
  | .functions => [[], part .function ++ part .functions]
  | .function => [part .header ++ part .body]
  | .header =>
    returnTypes.map fun type =>
      type ++ token .funName ++ sign .lparen ++ token .varName ++ sign .comma ++ token .varName
        ++ sign .comma ++ token .varName ++ sign .rparen
  | .body =>
    [sign .lbrace ++ part .locals ++ part .block ++ sign .rbrace ++ part .functions
      ++ word .endWord]
  | .locals =>
    valueTypes.flatMap fun first => valueTypes.flatMap fun second => valueTypes.map fun third =>
      localDecl first ++ localDecl second ++ localDecl third

namespace GrammarSymbol

def all : List GrammarSymbol :=
  [program, globals, block, commands, command, assign, call, branch, term, operation, condition,
    operand, atom, constant, functions, function, header, body, locals]

theorem mem_all (s : GrammarSymbol) : s ∈ all := by
  cases s <;> decide

end GrammarSymbol

theorem Operator.mem_all (op : Operator) : op ∈ Operator.all := by
  rcases op with op | op <;> cases op <;> decide

abbrev grammar : ContextFreeGrammar TokenKind where
  NT := GrammarSymbol
  initial := .program
  rules := (GrammarSymbol.all.flatMap fun s => (productions s).map (ContextFreeRule.mk s)).toFinset

/-- The rules of the grammar are the listed productions. -/
theorem mem_rules_iff {r : ContextFreeRule TokenKind GrammarSymbol} :
    r ∈ grammar.rules ↔ r.output ∈ productions r.input := by
  simp only [List.mem_toFinset, List.mem_flatMap, List.mem_map]
  constructor
  · rintro ⟨s, _, output, isProduction, rfl⟩
    exact isProduction
  · intro isProduction
    exact ⟨r.input, GrammarSymbol.mem_all _, r.output, isProduction, rfl⟩

end SplBasic
