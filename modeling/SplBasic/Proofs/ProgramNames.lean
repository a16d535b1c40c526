import Mathlib.Data.List.Nodup
import SplBasic.Proofs.ParserSoundness
import SplBasic.Proofs.SourceTokens
import SplBasic.Proofs.Traversal
import SplBasic.Compile

/-!
# The names of a program

`Program.names` lists the names of a program in source order: declared ones and used ones, each with
what it is meant to be. In a parsed program they are exactly the name tokens, in order, so in a
program that was read from a text

* no two names stand at the same place, and
* variables are marked `V_` and functions `F_`.

`Program.WellNamed` collects these two facts; all further theory of scopes rests on them only.

`exists_of_readProgram?` turns a computation on a fixed text into a fact about the program that it
spells; `nestedSource` is the text that further modules take their instances from.
-/

namespace SplBasic

namespace SymbolKind

def tokenKind : SymbolKind → TokenKind
  | .variable => .varName
  | .function => .funName

/-- The mark in front of the names of symbols. -/
def mark : SymbolKind → String
  | .variable => "V_"
  | .function => "F_"

end SymbolKind

/-- A name with what it is meant to be. -/
structure KindedName where
  kind : SymbolKind
  name : Name
  deriving DecidableEq, Repr

namespace NameUse

/-- A used name with what it is used as. -/
def kinded : NameUse → KindedName
  | .variable name => ⟨.variable, name⟩
  | .callee name => ⟨.function, name⟩

end NameUse

namespace FunctionDecl

/-- The names of a function, without those of the functions inside it. -/
def names (f : FunctionDecl) : List KindedName :=
  ⟨.function, f.name⟩ :: (f.entries.map fun entry => ⟨.variable, entry.1⟩)
    ++ f.body.commands.uses.map NameUse.kinded

end FunctionDecl

namespace Program

def names (p : Program) : List KindedName :=
  (p.globals.map fun decl => ⟨.variable, decl.name⟩) ++ p.block.commands.uses.map NameUse.kinded
    ++ p.functions.toList.flatMap FunctionDecl.names

end Program

/-! ## Names and name tokens -/

namespace KindedName

/-- The token of a name with the kind that it should have. -/
def entry (n : KindedName) : TokenKind × Token :=
  (n.kind.tokenKind, n.name.token)

end KindedName

namespace Token

def isName (t : Token) : Bool :=
  t.kind = .varName || t.kind = .funName

end Token

/-- The name tokens of a list with their kinds. -/
def nameTokens (ts : List Token) : List (TokenKind × Token) :=
  (ts.filter Token.isName).map fun t => (t.kind, t)

theorem nameTokens_variable {t : Token} (kind : t.kind = .varName) (ts : List Token) :
    nameTokens (t :: ts) = (.varName, t) :: nameTokens ts := by
  simp [nameTokens, Token.isName, kind]

theorem nameTokens_function {t : Token} (kind : t.kind = .funName) (ts : List Token) :
    nameTokens (t :: ts) = (.funName, t) :: nameTokens ts := by
  simp [nameTokens, Token.isName, kind]

theorem nameTokens_other {t : Token} (other : t.isName = false) (ts : List Token) :
    nameTokens (t :: ts) = nameTokens ts := by
  simp [nameTokens, other]

namespace Token

theorem IsSign.isName {t : Token} {sign : Punctuation} (isSign : t.IsSign sign) :
    t.isName = false := by
  have kind : t.kind = .punctuation sign := isSign
  simp [Token.isName, kind]

theorem IsWord.isName {t : Token} {word : Keyword} (isWord : t.IsWord word) :
    t.isName = false := by
  have kind : t.kind = .keyword word := isWord
  simp [Token.isName, kind]

/-- A word for a type is no name. -/
theorem isName_of_valueType {t : Token} {type : ValueType}
    (found : ValueType.ofKind? t.kind = some type) : t.isName = false := by
  unfold ValueType.ofKind? at found
  split at found
  · rename_i kind
    simp [Token.isName, kind]
  · rename_i kind
    simp [Token.isName, kind]
  · cases found

theorem isName_of_returnType {t : Token} {type : ReturnType}
    (found : ReturnType.ofKind? t.kind = some type) : t.isName = false := by
  unfold ReturnType.ofKind? at found
  split at found
  · rename_i kind
    simp [Token.isName, kind]
  · rcases Option.map_eq_some_iff.1 found with ⟨_, isValueType, _⟩
    exact isName_of_valueType isValueType

end Token

/-! ## Parts and tokens -/

namespace ValueType

/-- The kind of the tokens that spell values of the type. -/
def literalKind : ValueType → TokenKind
  | num => .numLit
  | text => .textLit

end ValueType

namespace Part

/-- The part is what is made of its token when it is read. -/
def IsRead : Part → Prop
  | word t => t.isName = false
  | .variable n => n = .ofToken n.token ∧ n.token.kind = .varName
  | function n => n = .ofToken n.token ∧ n.token.kind = .funName
  | literal l => l.token.kind = l.type.literalKind

end Part

/-- The parts are read from the tokens in order. Tokens that are no names may be passed over. -/
inductive ReadFrom : List Part → List Token → Prop
  | nil : ReadFrom [] []
  | skip {parts : List Part} {t : Token} {ts : List Token} (other : t.isName = false)
      (rest : ReadFrom parts ts) : ReadFrom parts (t :: ts)
  | part {p : Part} {parts : List Part} {ts : List Token} (isRead : p.IsRead)
      (rest : ReadFrom parts ts) : ReadFrom (p :: parts) (p.token :: ts)

namespace ReadFrom

variable {parts parts' : List Part} {t : Token} {ts ts' : List Token}

/-- Parts are read from left to right. -/
theorem append (read : ReadFrom parts ts) (read' : ReadFrom parts' ts') :
    ReadFrom (parts ++ parts') (ts ++ ts') := by
  induction read with
  | nil => exact read'
  | skip other _ ih => exact .skip other ih
  | part isRead _ ih => exact .part isRead ih

/-- A token that is no name may close what is read. -/
theorem closed (read : ReadFrom parts ts) (other : t.isName = false) :
    ReadFrom parts (ts ++ [t]) := by
  have all := read.append (.skip other .nil)
  rwa [List.append_nil] at all

theorem word (other : t.isName = false) (rest : ReadFrom parts ts) :
    ReadFrom (.word t :: parts) (t :: ts) :=
  .part (p := .word t) other rest

theorem variableName (kind : t.kind = .varName) (rest : ReadFrom parts ts) :
    ReadFrom (.variable (.ofToken t) :: parts) (t :: ts) :=
  .part (p := .variable (.ofToken t)) ⟨rfl, kind⟩ rest

theorem functionName (kind : t.kind = .funName) (rest : ReadFrom parts ts) :
    ReadFrom (.function (.ofToken t) :: parts) (t :: ts) :=
  .part (p := .function (.ofToken t)) ⟨rfl, kind⟩ rest

/-- Each part is what is made of one of the tokens. -/
theorem isRead (read : ReadFrom parts ts) : ∀ p ∈ parts, p.IsRead ∧ p.token ∈ ts := by
  induction read with
  | nil => exact List.forall_mem_nil _
  | skip _ _ ih => exact fun p member => ⟨(ih p member).1, List.mem_cons_of_mem _ (ih p member).2⟩
  | part isRead _ ih =>
    rw [List.forall_mem_cons]
    refine ⟨⟨isRead, List.mem_cons_self⟩, fun p member => ?_⟩
    exact ⟨(ih p member).1, List.mem_cons_of_mem _ (ih p member).2⟩

/-- The tokens of the parts stand in this order among all tokens. -/
theorem tokens_sublist (read : ReadFrom parts ts) : (parts.map Part.token).Sublist ts := by
  induction read with
  | nil => exact .slnil
  | skip _ _ ih => exact ih.cons _
  | part _ _ ih => exact ih.cons_cons _

/-- The names among the parts are the name tokens in order. -/
theorem names (read : ReadFrom parts ts) :
    (parts.filterMap Part.use?).map (fun use => use.kinded.entry) = nameTokens ts := by
  induction read with
  | nil => rfl
  | skip other _ ih => rw [nameTokens_other other, ih]
  | @part p _ _ isRead _ ih =>
    cases p with
    | word t => exact ih.trans (nameTokens_other isRead _).symm
    | «variable» n =>
      rw [Part.token, nameTokens_variable isRead.2, ← ih]
      rfl
    | function n =>
      rw [Part.token, nameTokens_function isRead.2, ← ih]
      rfl
    | literal l =>
      have kind : l.token.kind = l.type.literalKind := isRead
      -- literals have kinds of their own
      have other : l.token.isName = false := by
        cases type : l.type with
        | num => simp [Token.isName, kind, type, ValueType.literalKind]
        | text => simp [Token.isName, kind, type, ValueType.literalKind]
      exact ih.trans (nameTokens_other other _).symm

end ReadFrom

/-! ## Parts of programs that are spelt by tokens -/

theorem Atom.SpeltBy.parts {a : Atom} {ts : List Token} (spelt : a.SpeltBy ts) :
    ReadFrom a.parts ts := by
  cases spelt with
  | «variable» kind => exact .variableName kind .nil
  | @number t kind => exact .part (p := .literal ⟨t, .num, .unknown⟩) kind .nil
  | @text t kind => exact .part (p := .literal ⟨t, .text, .unknown⟩) kind .nil

/-- The parts of an expression are read from the tokens that spell it; brackets and commas are
passed over. -/
theorem Expr.SpeltBy.parts {e : Expr} {ts : List Token} (spelt : e.SpeltBy ts) :
    ReadFrom e.parts ts := by
  induction spelt with
  | atom spelt => exact spelt.parts
  | unary kind isParen _ isClosing ih =>
    exact .word (by simp [Token.isName, kind]) (.skip isParen.isName (ih.closed isClosing.isName))
  | binary kind isParen _ isComma _ isClosing ihLeft ihRight =>
    exact .word (by simp [Token.isName, kind]) (.skip isParen.isName
      (ihLeft.append (.skip isComma.isName (ihRight.closed isClosing.isName))))

theorem Call.SpeltBy.parts {c : Call} {ts : List Token} (spelt : c.SpeltBy ts) :
    ReadFrom c.parts ts := by
  cases spelt with
  | intro kind isParen first isComma second isComma' third isClosing =>
    exact .functionName kind (.skip isParen.isName (first.parts.append (.skip isComma.isName
      (second.parts.append (.skip isComma'.isName
        (third.parts.append (.skip isClosing.isName .nil)))))))

theorem Term.SpeltBy.parts {value : Term} {ts : List Token} (spelt : value.SpeltBy ts) :
    ReadFrom value.parts ts := by
  cases spelt with
  | expr spelt => exact spelt.parts
  | call spelt => exact spelt.parts

/-- The parts of a command are read from the tokens that spell it. -/
theorem SimpleCommand.SpeltBy.parts {command : SimpleCommand} {ts : List Token}
    (spelt : command.SpeltBy ts) : ReadFrom command.parts ts := by
  cases spelt with
  | skip isWord => exact .word isWord.isName .nil
  | halt isWord => exact .word isWord.isName .nil
  | print isWord value => exact .word isWord.isName value.parts
  | giveBack isWord value => exact .word isWord.isName value.parts
  | read kind isLess isInput =>
    exact .variableName kind (.skip isLess.isName (.word isInput.isName .nil))
  | assign kind isAssign value => exact .variableName kind (.skip isAssign.isName value.parts)
  | call spelt => exact spelt.parts

/-- Nothing is read from separators. -/
theorem Separates.parts {separator behind : List Token} (separates : Separates separator behind) :
    ReadFrom [] separator := by
  rcases separates with ⟨rfl, _⟩ | ⟨t, isSemicolon, rfl⟩
  · exact .nil
  · exact .skip isSemicolon.isName .nil

/-- The parts of commands are read from the tokens that spell them. -/
theorem Commands.SpeltBy.parts {cs : Commands} {ts : List Token} (spelt : cs.SpeltBy ts) :
    ReadFrom cs.parts ts := by
  induction spelt with
  | nil => exact .nil
  | simple command separates _ ih => exact command.parts.append (separates.parts.append ih)
  | ifThen isIf _ condition isThen isOpening _ isClosing separates _ ihBody ihRest =>
    rw [Commands.parts, List.append_assoc]
    exact .word isIf.isName (condition.parts.append (.skip isThen.isName (.skip isOpening.isName
      (ihBody.append (.skip isClosing.isName (separates.parts.append ihRest))))))
  | ifThenElse isIf _ condition isThen isOpening _ isClosing isElse isElseOpening _ isElseClosing
      separates _ ihThen ihElse ihRest =>
    rw [Commands.parts, List.append_assoc, List.append_assoc]
    exact .word isIf.isName (condition.parts.append (.skip isThen.isName (.skip isOpening.isName
      (ihThen.append (.skip isClosing.isName (.skip isElse.isName (.skip isElseOpening.isName
        (ihElse.append (.skip isElseClosing.isName (separates.parts.append ihRest))))))))))

theorem Block.SpeltBy.parts {block : Block} {ts : List Token} (spelt : block.SpeltBy ts) :
    ReadFrom block.commands.parts ts := by
  cases spelt with
  | intro isOpening commands isClosing =>
    exact .skip isOpening.isName (commands.parts.closed isClosing.isName)

theorem VarDecl.SpeltBy.parts {decl : VarDecl} {ts : List Token} (spelt : decl.SpeltBy ts) :
    ReadFrom decl.parts ts := by
  cases spelt with
  | intro isType kind =>
    exact .word (Token.isName_of_valueType isType) (.variableName kind .nil)

theorem GlobalsSpeltBy.parts {globals : List VarDecl} {ts : List Token}
    (spelt : GlobalsSpeltBy globals ts) : ReadFrom (globals.flatMap VarDecl.parts) ts := by
  induction spelt with
  | nil => exact .nil
  | last decl =>
    rw [List.flatMap_singleton]
    exact decl.parts
  | more decl isComma _ ih => exact decl.parts.append (.skip isComma.isName ih)

/-- The parts of a function are read from the tokens that spell it. -/
theorem FunctionDecl.HeadSpeltBy.parts {f : FunctionDecl} {ts : List Token}
    (spelt : f.HeadSpeltBy ts) : ReadFrom f.parts ts := by
  cases spelt with
  | intro isType nameKind isParen paramKind isComma paramKind' isComma' paramKind'' isRparen
      isLbrace decl isLocalComma decl' isLocalComma' decl'' isLocalComma'' body isRbrace =>
    have locals := decl.parts.append (.skip isLocalComma.isName (decl'.parts.append
      (.skip isLocalComma'.isName (decl''.parts.append (.skip isLocalComma''.isName
        (body.parts.closed isRbrace.isName))))))
    exact .word (Token.isName_of_returnType isType) (.functionName nameKind (.skip isParen.isName
      (.variableName paramKind (.skip isComma.isName (.variableName paramKind'
        (.skip isComma'.isName (.variableName paramKind'' (.skip isRparen.isName
          (.skip isLbrace.isName locals)))))))))

/-- The parts of functions are read in preorder, as inner functions stand behind what is around
them. -/
theorem FunctionsSpeltBy.parts {functions : Forest FunctionDecl} {ts : List Token}
    (spelt : FunctionsSpeltBy functions ts) :
    ReadFrom (functions.toList.flatMap FunctionDecl.parts) ts := by
  induction spelt with
  | nil => exact .nil
  | cons head _ isClosing _ ihInner ihRest =>
    rw [Forest.toList, List.flatMap_cons, List.flatMap_append]
    exact head.parts.append (ihInner.append (.skip isClosing.isName ihRest))

/-- The parts of a program are read from the tokens that spell it. -/
theorem Program.SpeltBy.parts {p : Program} {ts : List Token} (spelt : p.SpeltBy ts) :
    ReadFrom p.parts ts := by
  cases spelt with
  | intro isMain globals block functions =>
    exact .word isMain.isName (globals.parts.append (block.parts.append functions.parts))

/-- The names of a function are those among its parts. -/
theorem FunctionDecl.names_eq (f : FunctionDecl) :
    f.names = (f.parts.filterMap Part.use?).map NameUse.kinded := by
  rw [names, Commands.uses_eq]
  rfl

/-- The names of a program are those among its parts. -/
theorem Program.names_eq (p : Program) :
    p.names = (p.parts.filterMap Part.use?).map NameUse.kinded := by
  have globals : (p.globals.map fun decl => KindedName.mk .variable decl.name) =
      ((p.globals.flatMap VarDecl.parts).filterMap Part.use?).map NameUse.kinded := by
    rw [List.filterMap_flatMap, List.map_flatMap]
    exact List.map_eq_flatMap
  have functions : p.functions.toList.flatMap FunctionDecl.names =
      ((p.functions.toList.flatMap FunctionDecl.parts).filterMap Part.use?).map
        NameUse.kinded := by
    rw [List.filterMap_flatMap, List.map_flatMap]
    exact List.flatMap_congr fun f _ => f.names_eq
  rw [names, globals, functions, Commands.uses_eq, parts, List.filterMap_cons_none rfl,
    List.filterMap_append, List.filterMap_append, List.map_append, List.map_append,
    List.append_assoc]

/-- The names of a program are its name tokens in order, each of the kind that its role asks for. -/
theorem Program.SpeltBy.names {p : Program} {ts : List Token} (spelt : p.SpeltBy ts) :
    p.names.map KindedName.entry = nameTokens ts := by
  rw [Program.names_eq, List.map_map]
  exact spelt.parts.names

/-! ## Programs read from texts -/

/-- Names are told apart by their places, and their marks tell what they are meant to be. -/
structure Program.WellNamed (p : Program) : Prop where
  apart : (p.names.map fun n => n.name.pos).Nodup
  marked : ∀ n ∈ p.names, ∃ bare, n.name.source = n.kind.mark ++ bare

/-- The significant tokens stand in this order among all tokens. -/
theorem significant_sublist (tokens : List Token) : (significant tokens).Sublist tokens :=
  (List.takeWhile_sublist _).trans List.filter_sublist

/-- Every name of a parsed program is a token of the kind that its role asks for. -/
theorem token_of_parse {tokens : List Token} {p : Program} (parsed : parse tokens = .ok p) :
    ∀ n ∈ p.names, n.name.token ∈ tokens ∧ n.name.token.kind = n.kind.tokenKind := by
  intro n member
  have listed : n.entry ∈ nameTokens (significant tokens) :=
    (spelt_of_parse parsed).names ▸ List.mem_map_of_mem member
  rcases List.mem_map.1 listed with ⟨t, found, same⟩
  have kind : t.kind = n.kind.tokenKind := congrArg Prod.fst same
  have token : t = n.name.token := congrArg Prod.snd same
  rw [← token]
  exact ⟨(significant_sublist tokens).subset (List.mem_filter.1 found).1, kind⟩

/-- If the name tokens carry their marks, so do the names of the program that they spell. -/
theorem marked_of_parse {tokens : List Token} {p : Program} (parsed : parse tokens = .ok p)
    (marks : ∀ t ∈ tokens, (t.kind = .varName → ∃ bare, t.lexeme = "V_" ++ bare) ∧
      (t.kind = .funName → ∃ bare, t.lexeme = "F_" ++ bare)) :
    ∀ n ∈ p.names, ∃ bare, n.name.source = n.kind.mark ++ bare := by
  intro n member
  rcases token_of_parse parsed n member with ⟨inText, kind⟩
  -- the kind of the token fixes the mark
  cases role : n.kind with
  | «variable» => exact (marks _ inText).1 (by rw [kind, role]; rfl)
  | function => exact (marks _ inText).2 (by rw [kind, role]; rfl)

/-- The names of a program that is read from a text stand in the text one behind the other. -/
theorem pairwise_before_of_parse {text file : String} {tokens : List Token} {p : Program}
    (read : tokenize text file = .ok tokens) (parsed : parse tokens = .ok p) :
    (p.names.map fun n => n.name.pos).Pairwise Position.Before := by
  -- the places of the names are some of the places of the tokens, in the same order
  have places : (p.names.map fun n => n.name.pos) =
      ((significant tokens).filter Token.isName).map Token.pos := by
    have mapped := congrArg (List.map fun entry => entry.2.pos) (spelt_of_parse parsed).names
    simpa [nameTokens, Function.comp_def, KindedName.entry, Name.pos] using mapped
  have ordered : (tokens.map Token.pos).Pairwise Position.Before :=
    List.pairwise_map.2 (pairwise_before_of_tokenize read)
  rw [places]
  exact ordered.sublist ((List.filter_sublist.trans (significant_sublist tokens)).map _)

/-- A program that is read from a text is well named. -/
theorem wellNamed_of_parse {text file : String} {tokens : List Token} {p : Program}
    (read : tokenize text file = .ok tokens) (parsed : parse tokens = .ok p) : p.WellNamed :=
  ⟨(pairwise_before_of_parse read parsed).imp Position.Before.ne,
    marked_of_parse parsed (mark_of_tokenize read)⟩

/-- The program that a text spells, if it spells one. -/
def readProgram? (text file : String) : Option Program :=
  match tokenize text file with
  | .ok tokens => (parse tokens).toOption
  | .error _ => none

/-- A property of the program that a text spells can be tested by computation. -/
theorem exists_of_readProgram? {text file : String} {test : Program → Bool}
    (passes : (readProgram? text file).any test = true) :
    ∃ tokens p, tokenize text file = .ok tokens ∧ parse tokens = .ok p ∧ test p = true := by
  unfold readProgram? at passes
  cases read : tokenize text file with
  | error e => simp [read] at passes
  | ok tokens =>
    cases parsed : parse tokens with
    | error e => simp [read, parsed, Except.toOption] at passes
    | ok p =>
      have tested : test p = true := by simpa [read, parsed, Except.toOption] using passes
      exact ⟨tokens, p, rfl, parsed, tested⟩

/-- A program with a function inside a function, in which names are shadowed at every depth. -/
def nestedSource : String :=
  "main num V_x begin V_x=F_a(V_x,1,2) end "
    ++ "num F_a(V_x,V_y,V_z)\x7bnum V_p,num V_q,num V_r,begin return V_y end\x7d"
    ++ "void F_b(V_x,V_y,V_w)\x7bnum V_p,num V_q,num V_r,"
    ++ "begin if gt(V_x,V_z)then begin print V_q end end\x7dend end"

/-- The text spells a program with one global and two functions that is resolved and checked without
complaint. -/
theorem nestedSource_evaluated :
    ∃ tokens p, tokenize nestedSource "nested.spl" = .ok tokens ∧ parse tokens = .ok p ∧
      (resolve p).diagnostics = [] ∧ (typecheck (resolve p).scopes (resolve p).program).ok = true ∧
      p.functions.toList.length = 2 ∧ p.globals.length = 1 := by
  let accepted (p : Program) : Bool :=
    (resolve p).diagnostics.isEmpty && (typecheck (resolve p).scopes (resolve p).program).ok
      && p.functions.toList.length = 2 && p.globals.length = 1
  -- the text is read, resolved and checked in a single evaluation
  have passes : (readProgram? nestedSource "nested.spl").any accepted = true := by decide +kernel
  rcases exists_of_readProgram? passes with ⟨tokens, p, read, parsed, tested⟩
  simp only [accepted, Bool.and_eq_true, List.isEmpty_iff, decide_eq_true_eq] at tested
  rcases tested with ⟨⟨⟨resolved, checked⟩, two⟩, one⟩
  exact ⟨tokens, p, read, parsed, resolved, checked, two, one⟩

theorem exists_program_nestedSource :
    ∃ tokens p, tokenize nestedSource "nested.spl" = .ok tokens ∧ parse tokens = .ok p ∧
      (resolve p).diagnostics = [] ∧ (typecheck (resolve p).scopes (resolve p).program).ok = true ∧
      ∃ f g, p.functions.toList = [f, g] := by
  rcases nestedSource_evaluated with ⟨tokens, p, read, parsed, resolved, checked, two, _⟩
  exact ⟨tokens, p, read, parsed, resolved, checked, List.length_eq_two.1 two⟩

end SplBasic
