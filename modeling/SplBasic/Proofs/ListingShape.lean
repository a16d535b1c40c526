import Mathlib.Algebra.GroupWithZero.Nat
import SplBasic.Proofs.DistinctFunctions
import SplBasic.Proofs.LexerExactness

/-!
# The shape of listings

A compiled text falls into lines, one for each statement, that are numbered in steps of ten
(`hasLines_of_compile`). That no statement is broken over two lines rests on what it is written
from: names have unique names as their texts, and the lexer keeps line feeds out of literals
(`Settled`).

* `Program.unbroken_listing` : settled names and literals give statements without line feeds,
* `settled_of_parse` : a program that was read from a text and resolved is settled,
* `Program.length_listing_bindNames` : renaming does not change the number of lines.
-/

namespace SplBasic

/-! ## Texts without line feeds -/

/-- The text stands on one line. -/
def Unbroken (text : String) : Prop :=
  '\n' ∉ text.toList

instance (text : String) : Decidable (Unbroken text) :=
  inferInstanceAs (Decidable (_ ∉ _))

@[simp] theorem unbroken_append {first second : String} :
    Unbroken (first ++ second) ↔ Unbroken first ∧ Unbroken second := by
  simp [Unbroken]

/-- Numbers are written in one line. -/
theorem unbroken_toString (n : Nat) : Unbroken (toString n) := by
  intro feed
  rw [Nat.toString_eq_repr, Nat.toList_repr] at feed
  have isDigit : '\n'.isDigit = true := Nat.isDigit_of_mem_toDigits (by decide) (by decide) feed
  cases isDigit

/-- So is a list of texts that each are. -/
theorem unbroken_commaSeparated {texts : Triple String}
    (each : ∀ text ∈ texts.toList, Unbroken text) : Unbroken (commaSeparated texts) := by
  simp only [Triple.toList, List.forall_mem_cons] at each
  rcases each with ⟨first, second, third, _⟩
  have comma : Unbroken ", " := by decide
  simp only [commaSeparated, unbroken_append]
  exact ⟨⟨⟨⟨first, comma⟩, second⟩, comma⟩, third⟩

/-- Neither numbers nor texts are spelt with a line feed. -/
theorem unbroken_of_spelling {type : ValueType} {lexeme : String}
    (spelt : lexeme.toList ∈ Lexeme.spellings type.literalKind) : Unbroken lexeme :=
  Lexeme.not_mem_feed_of_spelling spelt

/-- Unique names are written in one line, as they consist of marks and digits. -/
theorem Name.Numbered.unbroken {n : Name} (numbered : n.Numbered) : Unbroken n.text := by
  rcases numbered with ⟨kind, number, text⟩
  intro feed
  rw [text] at feed
  cases SymbolKind.isAlphanum_of_mem_numberedName feed

/-! ## Texts of statements -/

/-- A name has a unique name as its text, and a literal is spelt as in a source text. -/
def Part.Settled : Part → Prop
  | word _ => True
  | .variable n => n.Numbered
  | function n => n.Numbered
  | literal l => l.token.lexeme.toList ∈ Lexeme.spellings l.type.literalKind

/-- All names and literals among the parts are settled. -/
def Settled (parts : List Part) : Prop :=
  ∀ part ∈ parts, part.Settled

theorem Settled.mono {parts parts' : List Part} (settled : Settled parts) (fewer : parts' ⊆ parts) :
    Settled parts' :=
  fun part listed => settled part (fewer listed)

/-- A settled atom is written in one line. -/
theorem Atom.unbroken_basic {a : Atom} (settled : Settled a.parts) : Unbroken a.basic := by
  cases a with
  | name n =>
    have numbered : n.Numbered := settled _ List.mem_cons_self
    exact numbered.unbroken
  | literal l => exact unbroken_of_spelling (settled _ List.mem_cons_self)

theorem BinaryOp.unbroken_basic (op : BinaryOp) : Unbroken op.basic := by
  cases op <;> decide

/-- So is an expression. -/
theorem Expr.unbroken_basic {e : Expr} (settled : Settled e.parts) : Unbroken e.basic := by
  induction e with
  | atom a => exact Atom.unbroken_basic settled
  | unary op token operand tag ih =>
    have inner := ih (List.forall_mem_cons.1 settled).2
    cases op with
    | not =>
      simp only [basic, unbroken_append, inner, and_true]
      decide
    | sqrt =>
      simp only [basic, unbroken_append, inner, and_true]
      decide
  | binary op token left right tag ihLeft ihRight =>
    rcases List.forall_mem_append.1 (List.forall_mem_cons.1 settled).2 with ⟨inLeft, inRight⟩
    simp only [basic, unbroken_append, ihLeft inLeft, ihRight inRight, op.unbroken_basic, and_true]
    decide

/-- So is a call. -/
theorem Call.unbroken_basic {c : Call} (settled : Settled c.parts) : Unbroken c.basic := by
  rcases List.forall_mem_cons.1 settled with ⟨numbered, inArgs⟩
  have callee : Unbroken c.callee.text := Name.Numbered.unbroken numbered
  have args : ∀ text ∈ (c.args.map Atom.basic).toList, Unbroken text := by
    rw [Triple.toList_map, List.forall_mem_map]
    intro a isArg
    exact Atom.unbroken_basic fun part listed =>
      inArgs part (List.mem_flatMap.2 ⟨a, isArg, listed⟩)
  simp only [basic, unbroken_append, callee, unbroken_commaSeparated args, and_true, true_and]
  decide

/-- So is a term. -/
theorem Term.unbroken_basic {value : Term} (settled : Settled value.parts) :
    Unbroken value.basic := by
  cases value with
  | expr e => exact Expr.unbroken_basic settled
  | call c => exact Call.unbroken_basic settled

/-- So is a command. -/
theorem SimpleCommand.unbroken_statement {command : SimpleCommand}
    (settled : Settled command.parts) (position : Nat) :
    Unbroken (command.statement position).text := by
  cases command with
  | skip keyword => exact unbroken_append.2 ⟨by decide, unbroken_toString _⟩
  | halt keyword => exact (by decide : Unbroken "END")
  | print keyword value =>
    exact unbroken_append.2 ⟨by decide, Atom.unbroken_basic (List.forall_mem_cons.1 settled).2⟩
  | giveBack keyword value =>
    exact unbroken_append.2 ⟨by decide, Atom.unbroken_basic (List.forall_mem_cons.1 settled).2⟩
  | read target keyword =>
    have numbered : target.Numbered := settled _ List.mem_cons_self
    exact unbroken_append.2 ⟨by decide, numbered.unbroken⟩
  | assign target value =>
    rcases List.forall_mem_cons.1 settled with ⟨numbered, inValue⟩
    have name : Unbroken target.text := Name.Numbered.unbroken numbered
    simp only [statement, Statement.text, unbroken_append, name, Term.unbroken_basic inValue,
      and_true]
    decide
  | call c => exact unbroken_append.2 ⟨by decide, Call.unbroken_basic settled⟩

/-- No statement of a settled block is broken. -/
theorem Commands.unbroken_of_mem {cs : Commands} (settled : Settled cs.parts)
    {start : Nat} {st : Statement} (member : st ∈ cs.statements start) : Unbroken st.text := by
  cases writtenFrom_of_mem settled st member with
  | goto target => exact unbroken_append.2 ⟨by decide, unbroken_toString _⟩
  | branch parts thenTarget elseTarget =>
    have condition := Expr.unbroken_basic parts
    simp only [Statement.text, unbroken_append, condition, unbroken_toString, and_true]
    decide
  | simple parts position => exact SimpleCommand.unbroken_statement parts position

/-! ## Texts of listings -/

/-- What holds for the lines of each function holds for all of them. -/
theorem forall_mem_functionListings {P : ListingLine → Prop} {fs : List FunctionDecl}
    (each : ∀ f ∈ fs, ∀ start, ∀ line ∈ f.listing start, P line) (start : Nat) :
    ∀ line ∈ functionListings start fs, P line := by
  induction fs generalizing start with
  | nil => simp [functionListings]
  | cons f fs ih =>
    rcases List.forall_mem_cons.1 each with ⟨first, others⟩
    rw [functionListings, List.forall_mem_append]
    exact ⟨first start, ih others _⟩

/-- What holds of the statements that set globals, of those of all blocks and of those around them
holds of the whole listing. -/
theorem Program.forall_mem_listing {p : Program} {P : Statement → Prop}
    (globals : ∀ decl ∈ p.globals, P (.letVar decl.name.text decl.type.initialValue))
    (blocks : ∀ r ∈ p.regions, ∀ start, ∀ st ∈ r.block.commands.statements start, P st)
    (functions : ∀ f ∈ p.functions.toList, P (.sub f.name.text (f.params.map Name.text)) ∧
      P (.locals (f.params.map Name.text)))
    (finish : P .finish) (endSub : P .endSub) : ∀ line ∈ p.listing, P line.statement := by
  rw [listing, List.forall_mem_append, List.forall_mem_map]
  constructor
  · simp only [mainStatements, prologue, List.forall_mem_append, List.forall_mem_map,
      List.forall_mem_singleton]
    exact ⟨⟨globals, blocks p.mainRegion List.mem_cons_self _⟩, finish⟩
  · refine forall_mem_functionListings (fun f isFunction start => ?_) _
    rcases exists_region_of_body isFunction with ⟨r, isRegion, block⟩
    simp only [FunctionDecl.listing, List.forall_mem_cons, List.forall_mem_append,
      List.forall_mem_map]
    -- the lines that open the function, its body, and the line that closes it
    refine ⟨(functions f isFunction).1, (functions f isFunction).2, ?_, endSub, by simp⟩
    exact block ▸ blocks r isRegion (start + 2)

/-- If all names and literals of a program are settled, no statement of its listing is broken. -/
theorem Program.unbroken_listing {p : Program} (declared : ∀ n ∈ p.declaredNames, n.Numbered)
    (settled : ∀ r ∈ p.regions, Settled r.block.commands.parts) :
    ∀ line ∈ p.listing, Unbroken line.statement.text := by
  refine forall_mem_listing (P := fun st => Unbroken st.text) (fun decl isGlobal => ?_)
    (fun r isRegion start st member => ?_) (fun f isFunction => ?_) (by decide) (by decide)
  · have name : Unbroken decl.name.text :=
      (declared _ (List.mem_append_left _ (List.mem_map_of_mem isGlobal))).unbroken
    have value : Unbroken decl.type.initialValue := by
      cases decl.type with
      | num => decide
      | text => decide
    simp only [Statement.text, unbroken_append, name, value, and_true]
    decide
  · exact Commands.unbroken_of_mem (settled r isRegion) member
  · have name : Unbroken f.name.text := (declared _ (name_mem_declaredNames isFunction)).unbroken
    have separated : Unbroken (commaSeparated (f.params.map Name.text)) := by
      apply unbroken_commaSeparated
      rw [Triple.toList_map, List.forall_mem_map]
      exact fun n isParam => (declared n (param_mem_declaredNames isFunction isParam)).unbroken
    simp only [Statement.text, unbroken_append, name, separated, and_true]
    decide

/-! ## Lines of a text -/

/-- The text consists of the lines, each of which is ended by a line feed and has no other one. -/
structure HasLines (text : String) (lines : List String) : Prop where
  whole : text = String.join (lines.map (· ++ "\n"))
  unbroken : ∀ line ∈ lines, Unbroken line

namespace NumberedLine

def content (line : NumberedLine) : String :=
  toString line.number ++ " " ++ line.indentation ++ line.text

end NumberedLine

/-- Each line gets a number. -/
theorem length_numberLines (first : Nat) (listing : List ListingLine) :
    (numberLines first listing).length = listing.length := by
  induction listing generalizing first with
  | nil => rfl
  | cons line rest ih => simp [numberLines, ih]

/-- Lines are numbered in steps, whatever they hold. -/
theorem number_numberLines (listing : List ListingLine) (first k : Nat)
    (inside : k < (numberLines first listing).length) :
    (numberLines first listing)[k].number = lineNumber (first + k) := by
  induction listing generalizing first k with
  | nil => cases inside
  | cons line rest ih =>
    cases k with
    | zero => rfl
    | succ k =>
      have later := ih (first + 1) k (by simpa [numberLines] using inside)
      simpa [numberLines, Nat.add_comm, Nat.add_left_comm] using later

/-- A numbered line is one line. -/
theorem unbroken_content {listing : List ListingLine}
    (unbroken : ∀ line ∈ listing, Unbroken line.statement.text) (first : Nat) :
    ∀ line ∈ numberLines first listing, Unbroken line.content := by
  induction listing generalizing first with
  | nil => simp [numberLines]
  | cons line rest ih =>
    rcases List.forall_mem_cons.1 unbroken with ⟨here, later⟩
    have indentation : Unbroken (if line.indented then "  " else "") := by
      cases line.indented with
      | false => decide
      | true => decide
    have blank : Unbroken " " := by decide
    rw [numberLines, List.forall_mem_cons]
    refine ⟨?_, ih later (first + 1)⟩
    simp only [NumberedLine.content, unbroken_append]
    exact ⟨⟨⟨unbroken_toString _, blank⟩, indentation⟩, here⟩

/-- A listing without broken statements has one line for each of them. -/
theorem hasLines_renderLines {listing : List ListingLine}
    (unbroken : ∀ line ∈ listing, Unbroken line.statement.text) :
    HasLines (renderLines 0 listing) ((numberLines 0 listing).map NumberedLine.content) := by
  constructor
  · rw [renderLines_eq_join, List.map_map]
    rfl
  · rw [List.forall_mem_map]
    exact unbroken_content unbroken 0

/-! ## The number of lines -/

/-- The functions take up as many lines as they count. -/
theorem length_functionListings (start : Nat) (fs : List FunctionDecl) :
    (functionListings start fs).length = (fs.map FunctionDecl.lineCount).sum := by
  induction fs generalizing start with
  | nil => rfl
  | cons f fs ih => simp [functionListings, ih]

namespace Program

/-- A listing has a line for each global variable, statement and function line, and one for the end.
-/
theorem length_listing (p : Program) :
    p.listing.length = p.globals.length + p.block.commands.size + 1
      + (p.functions.toList.map FunctionDecl.lineCount).sum := by
  simp only [listing, mainStatements, prologue, List.length_append, List.length_map,
    List.length_singleton, Commands.length_statements, length_functionListings]

/-- Renaming keeps the sizes of all blocks. -/
theorem sizes_bindNames (tree : ScopeTree) (p : Program) :
    ((p.bindNames tree).regions.map fun r => r.block.commands.size) =
      p.regions.map fun r => r.block.commands.size := by
  rw [regions_bindNames, List.map_map]
  apply List.map_congr_left
  intro r _
  exact r.block.commands.size_mapNames _ _

/-- Binding keeps the number of lines. -/
theorem length_listing_bindNames (tree : ScopeTree) (p : Program) :
    (p.bindNames tree).listing.length = p.listing.length := by
  have globals : (p.bindNames tree).globals.length = p.globals.length := by
    have erased := congrArg List.length (map_snd_along
      (fun tree (decl : VarDecl) => tree.declareVariable ScopeTree.global decl.entry) p.hoisted
      p.globals)
    simpa [bindNames] using erased
  -- the regions list the sizes of the main block and of all bodies at once
  have blocks (q : Program) : (q.regions.map fun r => r.block.commands.size) =
      q.block.commands.size :: q.functions.toList.map fun f => f.body.commands.size := by
    have mapped := congrArg (List.map fun block => block.commands.size) q.map_block_regions
    simpa [Function.comp_def] using mapped
  have sizes := sizes_bindNames tree p
  rw [blocks, blocks, List.cons.injEq] at sizes
  have counts : (p.bindNames tree).functions.toList.map FunctionDecl.lineCount =
      p.functions.toList.map FunctionDecl.lineCount := by
    have mapped := congrArg (List.map (3 + ·)) sizes.2
    rwa [List.map_map, List.map_map] at mapped
  calc (p.bindNames tree).listing.length
      = (p.bindNames tree).globals.length + (p.bindNames tree).block.commands.size + 1
        + ((p.bindNames tree).functions.toList.map FunctionDecl.lineCount).sum := length_listing _
    _ = p.globals.length + p.block.commands.size + 1
        + (p.functions.toList.map FunctionDecl.lineCount).sum := by rw [globals, sizes.1, counts]
    _ = p.listing.length := (length_listing p).symm

end Program

/-! ## Compiled texts -/

/-- Tokens that are read are compiled. -/
theorem compile_of_ok {text file : String} {tokens : List Token}
    (read : tokenize text file = .ok tokens) : compile text file = compileTokens tokens := by
  rw [compile, read]
  rfl

/-- A text that is not read is not compiled. -/
theorem compile_of_error {text file : String} {e : LexError}
    (failed : tokenize text file = .error e) : compile text file = .error (.lex e) := by
  rw [compile, failed]
  rfl

/-- What is compiled from a text was read. -/
theorem exists_tokens_of_compile {text file : String} {c : Compilation}
    (compiled : compile text file = .ok c) :
    ∃ tokens, tokenize text file = .ok tokens ∧ compileTokens tokens = .ok c := by
  cases read : tokenize text file with
  | ok tokens => exact ⟨tokens, rfl, (compile_of_ok read).symm.trans compiled⟩
  | error e =>
    rw [compile_of_error read] at compiled
    cases compiled

/-- In a program that is read from a text and resolved, all names and literals are settled. -/
theorem settled_of_parse {text file : String} {tokens : List Token} {p : Program}
    (read : tokenize text file = .ok tokens) (parsed : parse tokens = .ok p)
    (clean : p.scopeProblems p.scopeTree = []) :
    ∀ r ∈ (p.bindNames p.scopeTree).regions, Settled r.block.commands.parts := by
  intro r bound part listed
  have named {use : NameUse} (isUse : part.use? = some use) : use.kinded.name.Numbered := by
    refine Program.numbered_uses clean r bound use ?_
    rw [Commands.uses_eq]
    exact List.mem_filterMap.2 ⟨part, listed, isUse⟩
  cases part with
  | word t => trivial
  | «variable» n => exact named rfl
  | function n => exact named rfl
  | literal l =>
    rw [Program.regions_bindNames] at bound
    rcases List.mem_map.1 bound with ⟨r, isRegion, rfl⟩
    -- renaming leaves literals as they were parsed, and they were parsed from tokens of the text
    have original : Part.literal l ∈ r.block.commands.parts := by
      rw [ScopeTree.bindBlock, Block.mapNames_eq_map, Block.map, Commands.parts_map] at listed
      rcases List.mem_map.1 listed with ⟨part, isPart, same⟩
      cases part with
      | literal l' =>
        cases same
        exact isPart
      | _ => cases same
    have isBlock : r.block ∈ p.block :: p.functions.toList.map FunctionDecl.body := by
      rw [← p.map_block_regions]
      exact List.mem_map_of_mem isRegion
    rcases (spelt_of_parse parsed).exists_block isBlock with ⟨ts, within, block⟩
    rcases block.parts.isRead _ original with ⟨kind, isToken⟩
    have kind : l.token.kind = l.type.literalKind := kind
    rw [Part.Settled, ← kind]
    exact spelling_of_tokenize read _
      ((significant_sublist tokens).subset (within.subset isToken))

/-- A compiled text has one line for each global, for each statement of the main block and for its
end, and for each function three lines and one for each statement of its body. No line is broken,
and the lines are numbered in steps of ten. -/
theorem hasLines_of_compile {text file : String} {c : Compilation}
    (compiled : compile text file = .ok c) :
    ∃ tokens p lines, tokenize text file = .ok tokens ∧ parse tokens = .ok p ∧
      HasLines c.basic lines ∧
      lines.length = p.globals.length + p.block.commands.size + 1 +
        (p.functions.toList.map fun f => 3 + f.body.commands.size).sum ∧
      ∀ k (inside : k < lines.length),
        ∃ rest, lines[k] = toString (10 * (k + 1)) ++ " " ++ rest := by
  rcases exists_tokens_of_compile compiled with ⟨tokens, read, compiled⟩
  rcases exists_program_of_compileTokens compiled with ⟨p, parsed, compiled⟩
  rcases compileProgram_eq_ok compiled with ⟨clean, _, rfl⟩
  -- type tags are not listed, so it is the resolved program that is written out
  let q := p.bindNames p.scopeTree
  have unbroken : ∀ line ∈ q.listing, Unbroken line.statement.text :=
    Program.unbroken_listing (Program.numbered_declaredNames clean)
      (settled_of_parse read parsed clean)
  refine ⟨tokens, p, q.numberedLines.map NumberedLine.content, read, parsed, ?_, ?_, ?_⟩
  · rw [show ((resolve p).program.annotate (resolve p).scopes).basic = q.basic from
      Program.basic_annotate _ _]
    exact hasLines_renderLines unbroken
  · calc (q.numberedLines.map NumberedLine.content).length
        = q.listing.length := by
          rw [List.length_map, Program.numberedLines, length_numberLines]
      _ = p.listing.length := p.length_listing_bindNames p.scopeTree
      _ = _ := p.length_listing
  · intro k inside
    rw [List.length_map] at inside
    have number : q.numberedLines[k].number = lineNumber (0 + k) :=
      number_numberLines q.listing 0 k inside
    rw [List.getElem_map, NumberedLine.content, number, Nat.zero_add, String.append_assoc]
    exact ⟨_, rfl⟩

/-- A text with a literal that looks like code, a branch with two blocks and a function. -/
def literalSource : String :=
  "main text V_t begin V_t=\"GOTO 10;\";if eq(1,2)then begin skip end else begin print V_t end end "
    ++ "void F_f(V_a,V_b,V_c)\x7bnum V_x,num V_y,num V_z,begin halt end\x7dend"

/-- It is compiled to eleven lines: one global, five statements and an end, and four for the
function. -/
theorem hasLines_literalSource :
    ∃ c lines, compile literalSource "t.spl" = .ok c ∧ HasLines c.basic lines ∧ lines.length = 11 ∧
      ∀ k (inside : k < lines.length),
        ∃ rest, lines[k] = toString (10 * (k + 1)) ++ " " ++ rest := by
  let accepted (p : Program) : Bool :=
    (compileProgram p).toOption.isSome && p.globals.length + p.block.commands.size + 1 +
      (p.functions.toList.map fun f => 3 + f.body.commands.size).sum = 11
  have passes : (readProgram? literalSource "t.spl").any accepted = true := by decide +kernel
  rcases exists_of_readProgram? passes with ⟨tokens, p, read, parsed, test⟩
  simp only [accepted, Bool.and_eq_true, decide_eq_true_eq] at test
  rcases test with ⟨isOk, eleven⟩
  cases compiled : compileProgram p with
  | error e =>
    rw [compiled] at isOk
    cases isOk
  | ok c =>
    have whole :=
      calc compile literalSource "t.spl"
          = compileTokens tokens := compile_of_ok read
        _ = compileProgram p := compileTokens_of_ok parsed
        _ = .ok c := compiled
    rcases hasLines_of_compile whole with ⟨tokens', p', lines, read', parsed', has, count, numbers⟩
    cases read.symm.trans read'
    cases parsed.symm.trans parsed'
    exact ⟨c, lines, whole, has, count.trans eleven, numbers⟩

end SplBasic
