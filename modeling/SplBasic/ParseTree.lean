import SplBasic.Program.Basic
import SplBasic.Text.Line

/-!
# Parse trees

A uniform view of a program: a tree of grammar symbols over the tokens, for listing. Rules that
repeat keep their recursive shape, so a symbol without children marks the empty choice. Punctuation
and the words `then` and `else` are left out. A name is shown with its current text.
-/

namespace SplBasic

/-- The symbols of the grammar. -/
inductive GrammarSymbol
  | program | globals | block | commands | command | assign | call | branch | term | operation
  | condition | operand | atom | constant | functions | function | header | body | locals
  deriving DecidableEq, Repr

namespace GrammarSymbol

/-- The name of a symbol in listings. -/
def label : GrammarSymbol → String
  | program => "PROG"
  | globals => "GLOBVARS"
  | block => "ALGO"
  | commands => "INSTRUC"
  | command => "COMMAND"
  | assign => "ASSIGN"
  | call => "CALL"
  | branch => "BRANCH"
  | term => "TERM"
  | operation => "OP"
  | condition => "COND"
  | operand => "ARG"
  | atom => "ATOMIC"
  | constant => "CONST"
  | functions => "FUNCTIONS"
  | function => "DECL"
  | header => "HEADER"
  | body => "BODY"
  | locals => "LOCALVARS"

end GrammarSymbol

/-- A node of a parse tree: a token, or a grammar symbol with its type tag. -/
inductive Mark
  | terminal (token : Token)
  | nonterminal (symbol : GrammarSymbol) (tag : Ty)
  deriving DecidableEq, Repr

namespace Mark

/-- The text of a node in listings; a tag is shown if it is known. -/
def text : Mark → String
  | terminal token => token.kind.label ++ " " ++ token.lexeme
  | nonterminal symbol .unknown => symbol.label
  | nonterminal symbol tag => symbol.label ++ " : " ++ tag.name

end Mark

/-- Parse trees next to each other. -/
abbrev ParseTree := Forest Mark

namespace ParseTree

/-- A parse tree that is a single token. -/
def word (token : Token) : ParseTree :=
  .leaf (.terminal token)

/-- A grammar symbol with a type tag over the parse trees of its parts. -/
def tagged (symbol : GrammarSymbol) (tag : Ty) (parts : ParseTree) : ParseTree :=
  .node (.nonterminal symbol tag) parts

/-- A grammar symbol over the parse trees of its parts. -/
def symbol (symbol : GrammarSymbol) (parts : ParseTree) : ParseTree :=
  tagged symbol .unknown parts

/-- The listing of parse trees: one node a line, two spaces for each level. -/
def render (d : ParseTree) : String :=
  String.join ((d.outline 0).map fun (depth, mark, _) =>
    Text.spaces (2 * depth) ++ mark.text ++ "\n")

end ParseTree

open ParseTree (word symbol tagged)

namespace Name

/-- The parse tree of a name, shown with its current text. -/
def parseTree (name : Name) : ParseTree :=
  word { name.token with lexeme := name.text }

end Name

namespace Literal

def parseTree (l : Literal) : ParseTree :=
  tagged .constant l.tag (word l.token)

end Literal

namespace Atom

/-- What stands below the symbol of an atom. -/
def content : Atom → ParseTree
  | name n => n.parseTree
  | literal l => l.parseTree

def parseTree (a : Atom) : ParseTree :=
  tagged .atom a.tag a.content

end Atom

namespace Expr

/-- The parse tree of an expression below `role`, the symbol that an operation gets there. -/
def parseTreeAs (role : GrammarSymbol) : Expr → ParseTree
  | atom a => a.parseTree
  | unary _ op operand tag =>
    tagged role tag
      (word op ++ tagged .operand operand.tag (operand.parseTreeAs .operation))
  | binary _ op left right tag =>
    tagged role tag
      (word op ++ tagged .operand left.tag (left.parseTreeAs .operation)
        ++ tagged .operand right.tag (right.parseTreeAs .operation))

end Expr

namespace Call

def parseTree (c : Call) : ParseTree :=
  tagged .call c.tag
    (c.callee.parseTree ++ c.args.first.parseTree ++ c.args.second.parseTree
      ++ c.args.third.parseTree)

end Call

namespace Term

def content : Term → ParseTree
  | expr (.atom a) => a.content
  | expr e => e.parseTreeAs .operation
  | call c => c.parseTree

def parseTree (t : Term) : ParseTree :=
  tagged .term t.tag t.content

end Term

namespace SimpleCommand

def content : SimpleCommand → ParseTree
  | skip keyword => word keyword
  | halt keyword => word keyword
  | print keyword value => word keyword ++ value.parseTree
  | giveBack keyword value => word keyword ++ value.parseTree
  | read target keyword => symbol .assign (target.parseTree ++ word keyword)
  | assign target value => symbol .assign (target.parseTree ++ value.parseTree)
  | call c => c.parseTree

end SimpleCommand

namespace Brackets

/-- The parse tree of a block with these words around it. -/
def parseTree (brackets : Brackets) (commands : ParseTree) : ParseTree :=
  symbol .block (word brackets.opening ++ commands ++ word brackets.closing)

end Brackets

namespace Commands

def parseTree : Commands → ParseTree
  | nil => symbol .commands .nil
  | simple command tag rest =>
    symbol .commands (tagged .command tag command.content ++ rest.parseTree)
  | ifThen keyword condition brackets body tag rest =>
    symbol .commands
      (tagged .command tag
        (symbol .branch
          (word keyword ++ condition.parseTreeAs .condition
            ++ brackets.parseTree body.parseTree))
        ++ rest.parseTree)
  | ifThenElse keyword condition thenBrackets thenBody elseBrackets elseBody tag rest =>
    symbol .commands
      (tagged .command tag
        (symbol .branch
          (word keyword ++ condition.parseTreeAs .condition
            ++ thenBrackets.parseTree thenBody.parseTree
            ++ elseBrackets.parseTree elseBody.parseTree))
        ++ rest.parseTree)

end Commands

namespace Block

def parseTree (block : Block) : ParseTree :=
  block.brackets.parseTree block.commands.parseTree

end Block

namespace VarDecl

/-- The parse trees of the type and the name of a declared variable. -/
def parseTree (decl : VarDecl) : ParseTree :=
  word decl.typeToken ++ decl.name.parseTree

end VarDecl

/-- The parse tree of the globals. The last one has no empty rest below it. -/
def globalsTree : List VarDecl → ParseTree
  | [] => symbol .globals .nil
  | [decl] => symbol .globals decl.parseTree
  | decl :: rest => symbol .globals (decl.parseTree ++ globalsTree rest)

namespace FunctionDecl

/-- The parse tree of a function around the parse tree of the functions inside it. -/
def parseTree (f : FunctionDecl) (inner : ParseTree) : ParseTree :=
  symbol .function
    (symbol .header
      (word f.returnToken ++ f.name.parseTree ++ f.params.first.parseTree
        ++ f.params.second.parseTree ++ f.params.third.parseTree)
      ++ symbol .body
        (symbol .locals
          (f.locals.first.parseTree ++ f.locals.second.parseTree ++ f.locals.third.parseTree)
          ++ f.body.parseTree ++ inner ++ word f.closing))

end FunctionDecl

def functionsTree : Forest FunctionDecl → ParseTree
  | .nil => symbol .functions .nil
  | .cons f inner rest =>
    symbol .functions (f.parseTree (functionsTree inner) ++ functionsTree rest)

namespace Program

def parseTree (p : Program) : ParseTree :=
  symbol .program
    (word p.main ++ globalsTree p.globals ++ p.block.parseTree
      ++ functionsTree p.functions)

end Program

end SplBasic
