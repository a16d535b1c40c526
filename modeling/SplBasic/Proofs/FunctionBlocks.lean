import SplBasic.Proofs.JumpTargets
import SplBasic.Proofs.ListingShape
import SplBasic.Proofs.NamesInOrder

/-!
# Functions as blocks of lines

Functions may stand inside each other in a source text; in its listing they stand one behind the
other. A block of lines is opened by `SUB` and closed by `END SUB`, with neither in between
(`FunctionBlock`), and everything that is called is one of the blocks.

* `NumberedLine.calledName?` : what a line calls, read off its text,
* `Program.exists_callee` : it is called in the program,
* `functions_flattened` : the blocks of a compiled text and their names.
-/

namespace SplBasic

/-! ## Lines inside functions -/

namespace NumberedLine

/-- The line neither opens nor closes a function. -/
structure IsInner (line : NumberedLine) : Prop where
  opensNothing : line.subName? = none
  closesNothing : line.text ≠ "END SUB"

end NumberedLine

/-- The lines are one function with the given name and parameters: the line that opens it, its
parameters, its body and the line that closes it. -/
inductive FunctionBlock (name : String) (params : Triple String) : List NumberedLine → Prop
  | intro {opening locals closing : NumberedLine} {body : List NumberedLine} :
      opening.text = "SUB " ++ name ++ "(" ++
        (params.first ++ ", " ++ params.second ++ ", " ++ params.third) ++ ")" →
      locals.text = "LOCAL " ++ (params.first ++ ", " ++ params.second ++ ", " ++ params.third) →
      closing.text = "END SUB" →
      (∀ line ∈ locals :: body, line.IsInner) →
      FunctionBlock name params (opening :: locals :: (body ++ [closing]))

/-- A statement that neither opens nor closes a function stands inside or outside of all. -/
theorem Statement.isInner_text (number : Nat) (indentation : String) {st : Statement}
    (opensNothing : st.subName? = none) (closesNothing : st ≠ .endSub) :
    NumberedLine.IsInner ⟨number, indentation, st.text⟩ := by
  constructor
  · rw [subName?_text number indentation (by simp [opensNothing]), opensNothing]
  · intro same
    have chars := congrArg String.toList same
    cases st with
    | endSub => exact closesNothing rfl
    | sub name params => cases opensNothing
    | _ => simp [text] at chars

/-- So do numbered statements. -/
theorem isInner_numberStatements {statements : List Statement}
    (inner : ∀ st ∈ statements, st.isBoundary = false) (indented : Bool) (position : Nat) :
    ∀ line ∈ numberStatements indented position statements, line.IsInner := by
  induction statements generalizing position with
  | nil => simp [numberStatements, numberLines]
  | cons st rest ih =>
    rcases List.forall_mem_cons.1 inner with ⟨here, later⟩
    rw [numberStatements_cons, List.forall_mem_cons]
    refine ⟨Statement.isInner_text _ _ (Statement.subName?_eq_none here) ?_, ih later _⟩
    rintro rfl
    cases here

/-! ## Blocks -/

/-- The lines of a function are one block. -/
theorem FunctionDecl.functionBlock (f : FunctionDecl) (start : Nat) :
    FunctionBlock f.name.text (f.params.map Name.text) (numberLines start (f.listing start)) := by
  have lines : numberLines (start + 2) ((f.body.commands.statements (start + 2)).map
      (ListingLine.mk true) ++ [⟨false, .endSub⟩]) = _ := numberLines_append _ _ _
  rw [listing, numberLines, numberLines, lines]
  refine .intro rfl rfl rfl (List.forall_mem_cons.2 ⟨?_, ?_⟩)
  · exact Statement.isInner_text _ _ rfl (by simp)
  · exact isInner_numberStatements (fun st => Commands.isBoundary_of_mem) true (start + 2)

/-- The lines of functions one after the other, a block for each. -/
def functionBlocks (start : Nat) : List FunctionDecl → List (List NumberedLine)
  | [] => []
  | f :: rest => numberLines start (f.listing start) :: functionBlocks (start + f.lineCount) rest

/-- The blocks, one behind the other, are the listings of the functions. -/
theorem flatten_functionBlocks (start : Nat) (fs : List FunctionDecl) :
    (functionBlocks start fs).flatten = numberLines start (functionListings start fs) := by
  induction fs generalizing start with
  | nil => rfl
  | cons f fs ih =>
    calc (functionBlocks start (f :: fs)).flatten
        = numberLines start (f.listing start)
            ++ (functionBlocks (start + f.lineCount) fs).flatten := List.flatten_cons
      _ = numberLines start (f.listing start)
            ++ numberLines (start + f.lineCount) (functionListings (start + f.lineCount) fs) := by
          rw [ih]
      _ = numberLines start (functionListings start (f :: fs)) := by
          rw [functionListings, numberLines_append, FunctionDecl.length_listing]

theorem length_functionBlocks (start : Nat) (fs : List FunctionDecl) :
    (functionBlocks start fs).length = fs.length := by
  induction fs generalizing start with
  | nil => rfl
  | cons f fs ih => rw [functionBlocks, List.length_cons, List.length_cons, ih]

/-- The `k`-th block is that of the `k`-th function. -/
theorem exists_function_of_block {start : Nat} {fs : List FunctionDecl} {k : Nat}
    {block : List NumberedLine} (found : (functionBlocks start fs)[k]? = some block) :
    ∃ f, fs[k]? = some f ∧ ∃ start, block = numberLines start (f.listing start) := by
  induction fs generalizing start k with
  | nil => cases found
  | cons f fs ih =>
    cases k with
    | zero =>
      cases found
      exact ⟨f, rfl, start, rfl⟩
    | succ k => exact ih found

namespace Program

/-- The lines of the main part in front of the line that closes it. -/
def mainLines (p : Program) : List NumberedLine :=
  numberStatements false 0 (p.prologue ++ p.block.commands.statements p.globals.length)

def lastMainLine (p : Program) : NumberedLine :=
  ⟨lineNumber (p.globals.length + p.block.commands.size), "", Statement.finish.text⟩

def blocks (p : Program) : List (List NumberedLine) :=
  functionBlocks p.mainStatements.length p.functions.toList

/-- The main part is closed by its last line. -/
theorem numberStatements_mainStatements (p : Program) :
    numberStatements false 0 p.mainStatements = p.mainLines ++ [p.lastMainLine] := by
  rw [mainStatements, numberStatements_append, mainLines]
  simp [numberStatements, numberLines, lastMainLine, prologue]

/-- All lines are the main part, its end and the blocks of the functions. -/
theorem numberedLines_eq (p : Program) :
    p.numberedLines = p.mainLines ++ p.lastMainLine :: p.blocks.flatten := by
  calc p.numberedLines
      = numberStatements false 0 p.mainStatements
          ++ numberLines p.mainStatements.length
            (functionListings p.mainStatements.length p.functions.toList) := by
        rw [numberedLines, listing, numberLines_append, List.length_map, Nat.zero_add]
        rfl
    _ = (p.mainLines ++ [p.lastMainLine]) ++ p.blocks.flatten := by
        rw [numberStatements_mainStatements, blocks, flatten_functionBlocks]
    _ = p.mainLines ++ p.lastMainLine :: p.blocks.flatten := List.append_assoc _ _ _

/-- No line of the main part opens or closes a function. -/
theorem isInner_of_mem_mainLines (p : Program) : ∀ line ∈ p.mainLines, line.IsInner := by
  refine isInner_numberStatements (fun st member => ?_) false 0
  rcases List.mem_append.1 member with inPrologue | inBlock
  · rcases List.mem_map.1 inPrologue with ⟨decl, _, rfl⟩
    rfl
  · exact Commands.isBoundary_of_mem inBlock

end Program

/-! ## What lines call -/

/-- The name that a text applies to something: letters and digits right in front of a bracket. -/
def appliedName? (cs : List Char) : Option String :=
  let name := cs.takeWhile Char.isAlphanum
  if name ≠ [] ∧ (cs.dropWhile Char.isAlphanum).head? = some '(' then some (String.ofList name)
  else none

namespace NumberedLine

/-- Reads `CALL f(…)`. -/
def callee? (cs : List Char) : Option String := do
  appliedName? (← cs.dropPrefix? "CALL ".toList)

/-- Reads `LET v = f(…)`. -/
def letCallee? (cs : List Char) : Option String := do
  let behindLet ← cs.dropPrefix? "LET ".toList
  appliedName? (← (behindLet.dropWhile Char.isAlphanum).dropPrefix? " = ".toList)

/-- The name of the function that a line calls, in a call or on the right of an assignment. -/
def calledName? (line : NumberedLine) : Option String :=
  callee? line.text.toList <|> letCallee? line.text.toList

end NumberedLine

/-- Unique names are made of letters and digits. -/
theorem Name.Numbered.isAlphanum {n : Name} (numbered : n.Numbered) :
    ∀ c ∈ n.text.toList, c.isAlphanum = true := by
  rcases numbered with ⟨kind, number, text⟩
  rw [text]
  exact fun c => SymbolKind.isAlphanum_of_mem_numberedName

/-- A name in front of a bracket is read back. -/
theorem appliedName?_append {name : String} (plain : ∀ c ∈ name.toList, c.isAlphanum = true)
    (notEmpty : name.toList ≠ []) (rest : List Char) :
    appliedName? (name.toList ++ '(' :: rest) = some name := by
  have bracket : ('(' :: rest).takeWhile Char.isAlphanum = [] := rfl
  have behind : ('(' :: rest).dropWhile Char.isAlphanum = '(' :: rest := rfl
  rw [appliedName?, List.takeWhile_append_of_pos plain, List.dropWhile_append_of_pos plain, bracket,
    behind, List.append_nil]
  simp [notEmpty]

/-- Without a bracket, nothing is called. -/
theorem appliedName?_of_not_mem {cs : List Char} (noBracket : '(' ∉ cs) :
    appliedName? cs = none := by
  rw [appliedName?, if_neg]
  rintro ⟨_, behind⟩
  exact noBracket ((List.dropWhile_sublist _).subset (List.mem_of_mem_head? behind))

theorem appliedName?_cons {c : Char} (isSign : c.isAlphanum = false) (cs : List Char) :
    appliedName? (c :: cs) = none := by
  simp [appliedName?, isSign]

/-- Neither numbers nor texts apply anything. -/
theorem appliedName?_of_spelling {type : ValueType} {word : List Char}
    (spelt : word ∈ Lexeme.spellings type.literalKind) : appliedName? word = none := by
  cases type with
  | num =>
    rcases Lexeme.numberChars_of_spelling spelt with ⟨c, cs, rfl, starts, follow⟩
    refine appliedName?_of_not_mem fun bracket => ?_
    rcases List.mem_cons.1 bracket with rfl | later
    · cases starts
    · cases follow _ later
  | text =>
    rcases Lexeme.mem_quotedText.1 spelt with ⟨body, _, rfl⟩
    exact appliedName?_cons rfl _

/-- An expression applies nothing: its names are not in front of brackets, and its operators are
behind them. -/
theorem Expr.appliedName?_basic {e : Expr} (settled : Settled e.parts) :
    appliedName? e.basic.toList = none := by
  cases e with
  | atom a =>
    cases a with
    | name n =>
      refine appliedName?_of_not_mem fun bracket => ?_
      have numbered : n.Numbered := settled _ List.mem_cons_self
      cases numbered.isAlphanum _ bracket
    | literal l => exact appliedName?_of_spelling (settled _ List.mem_cons_self)
  | unary op token operand tag =>
    cases op with
    | not =>
      simp only [basic, String.toList_append, List.append_assoc]
      exact appliedName?_cons rfl _
    | sqrt =>
      simp only [basic, String.toList_append, List.append_assoc]
      exact appliedName?_cons rfl _
  | binary op token left right tag =>
    simp only [basic, String.toList_append, List.append_assoc]
    exact appliedName?_cons rfl _

/-- A call applies its callee. -/
theorem Call.appliedName?_basic {c : Call} (numbered : c.callee.Numbered) :
    appliedName? c.basic.toList = some c.callee.text := by
  have chars : c.basic.toList =
      c.callee.text.toList ++ '(' :: (commaSeparated (c.args.map Atom.basic) ++ ")").toList := by
    simp [basic]
  rw [chars]
  refine appliedName?_append numbered.isAlphanum ?_ _
  rcases numbered with ⟨kind, number, text⟩
  rw [text]
  cases kind with
  | «variable» => simp [SymbolKind.numberedName, SymbolKind.letter]
  | function => simp [SymbolKind.numberedName, SymbolKind.letter]

namespace Statement

def calledName? : Statement → Option String
  | letVar _ value => appliedName? value.toList
  | call application => appliedName? application.toList
  | _ => none

/-- It is read off the text of the statement, if what it assigns to is letters and digits. -/
theorem calledName?_text (number : Nat) (indentation : String) {st : Statement}
    (plain : ∀ target value, st = letVar target value →
      ∀ c ∈ target.toList, c.isAlphanum = true) :
    NumberedLine.calledName? ⟨number, indentation, st.text⟩ = st.calledName? := by
  cases st with
  | letVar target value =>
    have chars : (text (letVar target value)).toList =
        "LET ".toList ++ (target.toList ++ (" = ".toList ++ value.toList)) := by
      simp [text]
    have behind : (target.toList ++ (" = ".toList ++ value.toList)).dropWhile Char.isAlphanum =
        " = ".toList ++ value.toList := by
      rw [List.dropWhile_append_of_pos (plain target value rfl)]
      rfl
    -- the target ends at the first sign that is neither a letter nor a digit, and the blank is one
    have noCall : NumberedLine.callee? (text (letVar target value)).toList = none := by
      simp [NumberedLine.callee?, text, List.dropPrefix?]
    rw [NumberedLine.calledName?, noCall, NumberedLine.letCallee?, chars,
      List.dropPrefix?_append_of_beq _ (by simp)]
    simp only [Option.bind_eq_bind, Option.bind_some, behind]
    rw [List.dropPrefix?_append_of_beq _ (by simp)]
    rfl
  | call application =>
    have chars : (text (call application)).toList = "CALL ".toList ++ application.toList := by
      simp [text]
    have noLet : NumberedLine.letCallee? (text (call application)).toList = none := by
      simp [NumberedLine.letCallee?, text, List.dropPrefix?]
    rw [NumberedLine.calledName?, noLet, NumberedLine.callee?, chars,
      List.dropPrefix?_append_of_beq _ (by simp)]
    simp [calledName?]
  | _ =>
    simp [NumberedLine.calledName?, NumberedLine.callee?, NumberedLine.letCallee?, text,
      calledName?, List.dropPrefix?]

end Statement

/-- The statement assigns to letters and digits, and it calls only functions with the given
names. -/
structure Statement.Calls (callees : String → Prop) (st : Statement) : Prop where
  target : ∀ target value, st = .letVar target value → ∀ c ∈ target.toList, c.isAlphanum = true
  callee : ∀ name, st.calledName? = some name → callees name

namespace Statement

variable {callees : String → Prop}

/-- An assignment calls what its value calls. -/
theorem calls_letVar {target value : String}
    (plain : ∀ c ∈ target.toList, c.isAlphanum = true)
    (callee : ∀ name, appliedName? value.toList = some name → callees name) :
    (letVar target value).Calls callees where
  target := by
    rintro _ _ ⟨⟩
    exact plain
  callee := callee

/-- A statement that assigns and calls nothing. -/
theorem calls_of_quiet {st : Statement} (assigns : ∀ target value, st ≠ letVar target value)
    (quiet : st.calledName? = none) : st.Calls callees where
  target target value same := absurd same (assigns target value)
  callee := by
    intro name called
    cases quiet.symm.trans called

theorem Calls.mono {callees' : String → Prop} {st : Statement} (calls : st.Calls callees)
    (each : ∀ name, callees name → callees' name) : st.Calls callees' :=
  ⟨calls.target, fun name called => each name (calls.callee name called)⟩

end Statement

/-- The commands call a function with this name. -/
def Commands.HasCallee (cs : Commands) (name : String) : Prop :=
  ∃ n, .callee n ∈ cs.uses ∧ n.text = name

/-- The statements of a settled block call what is called in the block. -/
theorem Commands.calls_of_mem {cs : Commands} (settled : Settled cs.parts) {start : Nat}
    {st : Statement} (member : st ∈ cs.statements start) : st.Calls cs.HasCallee := by
  have written : st.WrittenFrom (· ∈ cs.parts) := writtenFrom_of_mem (fun _ => id) st member
  -- only calls apply a name, and they apply the name of their callee
  have ofCall {c : Call} (inside : ∀ part ∈ c.parts, part ∈ cs.parts) (name : String)
      (applied : appliedName? c.basic.toList = some name) : cs.HasCallee name := by
    have isPart := inside (.function c.callee) List.mem_cons_self
    have used : .callee c.callee ∈ cs.uses := by
      rw [uses_eq]
      exact List.mem_filterMap.2 ⟨_, isPart, rfl⟩
    have callee := Call.appliedName?_basic (settled _ isPart)
    exact ⟨c.callee, used, Option.some.inj (callee.symm.trans applied)⟩
  cases written with
  | goto target => exact Statement.calls_of_quiet (by simp) rfl
  | branch parts thenTarget elseTarget => exact Statement.calls_of_quiet (by simp) rfl
  | @simple command parts position =>
    cases command with
    | assign target value =>
      rcases List.forall_mem_cons.1 parts with ⟨isPart, inside⟩
      have numbered : target.Numbered := settled _ isPart
      refine Statement.calls_letVar numbered.isAlphanum ?_
      cases value with
      | expr e =>
        have nothing := Expr.appliedName?_basic (settled.mono inside)
        intro name applied
        cases nothing.symm.trans applied
      | call c => exact ofCall inside
    | call c => exact ⟨by simp [SimpleCommand.statement], ofCall parts⟩
    | _ => exact Statement.calls_of_quiet (by simp [SimpleCommand.statement]) rfl

/-- What a line calls is what its statement calls. -/
theorem callee_of_numberLines {callees : String → Prop} {listing : List ListingLine}
    (calls : ∀ line ∈ listing, line.statement.Calls callees) (position : Nat) :
    ∀ line ∈ numberLines position listing, ∀ name, line.calledName? = some name →
      callees name := by
  induction listing generalizing position with
  | nil => simp [numberLines]
  | cons line rest ih =>
    rcases List.forall_mem_cons.1 calls with ⟨here, later⟩
    rw [numberLines, List.forall_mem_cons]
    refine ⟨fun name called => here.callee name ?_, ih later _⟩
    rwa [Statement.calledName?_text _ _ here.target] at called

namespace Program

/-- What a line of the listing of a settled program calls is called in the program. -/
theorem exists_callee {p : Program} (declared : ∀ n ∈ p.declaredNames, n.Numbered)
    (settled : ∀ r ∈ p.regions, Settled r.block.commands.parts) :
    ∀ line ∈ p.numberedLines, ∀ name, line.calledName? = some name →
      ∃ r ∈ p.regions, r.block.commands.HasCallee name := by
  apply callee_of_numberLines
  refine forall_mem_listing (fun decl isGlobal => ?_) (fun r isRegion start st member => ?_)
    (fun f _ => ⟨?_, ?_⟩) ?_ ?_
  · -- a global variable is set to a constant, which calls nothing
    have numbered : decl.name.Numbered :=
      declared _ (List.mem_append_left _ (List.mem_map_of_mem isGlobal))
    have nothing : appliedName? decl.type.initialValue.toList = none := by
      cases decl.type with
      | num => decide
      | text => decide
    refine Statement.calls_letVar numbered.isAlphanum fun name applied => ?_
    cases nothing.symm.trans applied
  · exact (Commands.calls_of_mem (settled r isRegion) member).mono
      fun name called => ⟨r, isRegion, called⟩
  · exact Statement.calls_of_quiet (by simp) rfl
  · exact Statement.calls_of_quiet (by simp) rfl
  · exact Statement.calls_of_quiet (by simp) rfl
  · exact Statement.calls_of_quiet (by simp) rfl

/-- What is called in a program without problems is one of its functions. -/
theorem mem_functionTexts_of_callee {p : Program} (named : p.WellNamed)
    (clean : p.scopeProblems p.scopeTree = []) {r : Region}
    (bound : r ∈ (p.bindNames p.scopeTree).regions) {name : String}
    (called : r.block.commands.HasCallee name) :
    name ∈ (p.bindNames p.scopeTree).functions.toList.map fun f => f.name.text := by
  rcases scopeProblems_eq_nil_iff.1 clean with ⟨_, _, blocks⟩
  rw [regions_bindNames] at bound
  rcases List.mem_map.1 bound with ⟨r, isRegion, rfl⟩
  rcases called with ⟨n, listed, rfl⟩
  rw [ScopeTree.uses_bindBlock] at listed
  rcases List.mem_map.1 listed with ⟨use, isUse, renamed⟩
  have isSome := ScopeTree.isSome_referent_of_blockProblems (blocks r isRegion) isUse
  rcases Option.isSome_iff_exists.1 isSome with ⟨d, found⟩
  have text := ScopeTree.text_of_referent found
  rw [renamed] at text
  have isFunction : d.symbol.kind = .function := by
    cases use with
    | «variable» name => cases renamed
    | callee name =>
      by_cases isMain : name.bare = "main"
      · simp [ScopeTree.referent, isMain] at found
      · rw [ScopeTree.referent, if_neg isMain] at found
        exact of_decide_eq_true (Option.filter_eq_some_iff.1 found).2
  rw [map_text_functions named clean, ← map_unique_functions named clean,
    show n.text = d.symbol.unique from text]
  refine List.mem_map_of_mem ?_
  -- the symbols are those of functions and of variables, and what is called is no variable
  have declared := List.mem_reverse.2 (ScopeTree.mem_of_referent found)
  rw [declarations_of_clean clean, List.mem_append] at declared
  refine declared.resolve_right fun isVariable => ?_
  rcases Slot.exists_slot_of_mem isVariable with ⟨slot, hasSlot, id, number, rfl⟩
  cases (kind_of_mem_variableSlots hasSlot).symm.trans isFunction

end Program

/-! ## Compiled texts -/

/-- Functions are declared in the order in which they stand in the text. -/
theorem functions_before_of_parse {text file : String} {tokens : List Token} {p : Program}
    (read : tokenize text file = .ok tokens) (parsed : parse tokens = .ok p) :
    (p.functions.toList.map fun f => f.name.pos).Pairwise Position.Before := by
  have ordered := pairwise_before_of_parse read parsed
  have names := (p.functionNames_sublist.trans p.declaredNames_sublist).map Name.pos
  rw [List.map_map, List.map_map] at names
  exact ordered.sublist names

/-- The lines of a compilation of `p`: the main part, the line that closes it, and one block for
each function. -/
structure Compilation.FlatLines (c : Compilation) (p : Program) (main : List NumberedLine)
    (last : NumberedLine) (blocks : List (List NumberedLine)) : Prop where
  /-- These are all lines of the text. -/
  whole : HasLines c.basic ((main ++ last :: blocks.flatten).map NumberedLine.content)
  /-- Between the number of a line and its text there are blanks only. -/
  blanks : ∀ line ∈ main ++ last :: blocks.flatten,
    line.indentation = "" ∨ line.indentation = "  "
  /-- The main part lists the globals and the main block, and no function starts or ends there. -/
  mainPart : c.program.mainSegment.ListedBy (main ++ [last])
  mainInner : ∀ line ∈ main, line.IsInner
  mainEnd : last.text = "END"
  /-- There are as many blocks as functions. -/
  count : blocks.length = p.functions.size
  /-- The `k`-th block lists the `k`-th function, counted from 0. -/
  lists : ∀ (k : Nat) (block : List NumberedLine), blocks[k]? = some block →
    ∃ f : FunctionDecl, c.program.functions.toList[k]? = some f ∧ f.segment.ListedBy block
  /-- Functions are numbered, and their parameters come behind the globals and the six variables of
  each function before them. -/
  isBlock : ∀ (k : Nat) (block : List NumberedLine), blocks[k]? = some block →
    let first := p.globals.length + 6 * k + 1
    FunctionBlock ("f" ++ toString (k + 1))
      ⟨"v" ++ toString first, "v" ++ toString (first + 1), "v" ++ toString (first + 2)⟩ block
  /-- Whatever a line calls is opened by exactly one line. -/
  closed : ∀ line ∈ main ++ last :: blocks.flatten, ∀ name, line.calledName? = some name →
    ((main ++ last :: blocks.flatten).filterMap NumberedLine.subName?).count name = 1

/-- Lines are indented by two blanks or not at all. -/
theorem indentation_of_mem_numberLines {position : Nat} {listing : List ListingLine} :
    ∀ line ∈ numberLines position listing, line.indentation = "" ∨ line.indentation = "  " := by
  induction listing generalizing position with
  | nil => simp [numberLines]
  | cons line rest ih =>
    rw [numberLines, List.forall_mem_cons]
    refine ⟨?_, ih⟩
    cases line.indented with
    | false => exact .inl rfl
    | true => exact .inr rfl

/-- The names and parameters of the blocks of a program without problems, type tags or not. -/
theorem Program.functionBlock_of_clean {p : Program} (named : p.WellNamed)
    (clean : p.scopeProblems p.scopeTree = []) (scopes : ScopeTree) {k : Nat}
    {block : List NumberedLine}
    (found : ((p.bindNames p.scopeTree).annotate scopes).blocks[k]? = some block) :
    FunctionBlock (SymbolKind.function.numberedName (k + 1))
      (variableTriple (p.globals.length + 6 * k + 1)) block := by
  have functions : ((p.bindNames p.scopeTree).annotate scopes).functions.toList =
      (p.bindNames p.scopeTree).functions.toList.map (FunctionDecl.annotate scopes) :=
    Forest.toList_map _ _
  rcases exists_function_of_block found with ⟨f, isFunction, start, rfl⟩
  rw [functions, List.getElem?_map, Option.map_eq_some_iff] at isFunction
  rcases isFunction with ⟨g, isFunction, rfl⟩
  have block := (g.annotate scopes).functionBlock start
  rw [← text_of_function named clean isFunction, ← texts_of_params named clean isFunction]
  exact block

namespace Program

/-- Type tags are not listed. -/
theorem numberedLines_annotate (p : Program) (scopes : ScopeTree) :
    (p.annotate scopes).numberedLines = p.numberedLines := by
  rw [numberedLines, numberedLines, listing_annotate]

/-- Functions keep their tokens and their order through both passes. -/
theorem tokens_functions_annotate (p : Program) (tree scopes : ScopeTree) :
    (((p.bindNames tree).annotate scopes).functions.toList.map fun f => f.name.token) =
      p.functions.toList.map fun f => f.name.token := by
  have functions : ((p.bindNames tree).annotate scopes).functions.toList =
      (p.bindNames tree).functions.toList.map (FunctionDecl.annotate scopes) :=
    Forest.toList_map _ _
  have kept := p.tokens_functionNames_bindNames tree
  rw [List.map_map, List.map_map] at kept
  rw [functions, List.map_map]
  exact kept

/-- Whatever is called in the listing of a program without problems is opened there once. -/
theorem count_subNames_of_called {p : Program} (named : p.WellNamed)
    (clean : p.scopeProblems p.scopeTree = [])
    (settled : ∀ r ∈ (p.bindNames p.scopeTree).regions, Settled r.block.commands.parts) :
    ∀ line ∈ (p.bindNames p.scopeTree).numberedLines, ∀ name, line.calledName? = some name →
      ((p.bindNames p.scopeTree).numberedLines.filterMap NumberedLine.subName?).count name = 1 := by
  intro line member name called
  have opened : (p.bindNames p.scopeTree).numberedLines.filterMap NumberedLine.subName? =
      (p.bindNames p.scopeTree).functions.toList.map fun f => f.name.text := by
    rw [← numberedLines_annotate _ p.scopeTree]
    exact subNames_annotate clean p.scopeTree
  -- functions are numbered, so no two of them have the same text
  have distinct : ((p.bindNames p.scopeTree).functions.toList.map fun f => f.name.text).Nodup := by
    have numbers : (List.range' 1 p.functions.size).Nodup := List.nodup_range'
    rw [map_text_functions named clean]
    exact numbers.map fun m n same => (SymbolKind.numberedName_inj same).2
  rcases exists_callee (numbered_declaredNames clean) settled line member name called with
    ⟨r, isRegion, hasCallee⟩
  rw [opened]
  exact List.count_eq_one_of_mem distinct
    (mem_functionTexts_of_callee named clean isRegion hasCallee)

end Program

/-- In a compiled text the functions follow the main part, one block for each, in the order of the
source text, and everything that is called is one of them. -/
theorem functions_flattened {text file : String} {c : Compilation}
    (compiled : compile text file = .ok c) :
    ∃ tokens p, tokenize text file = .ok tokens ∧ parse tokens = .ok p ∧
      (p.functions.toList.map fun f => f.name.pos).Pairwise Position.Before ∧
      (c.program.functions.toList.map fun f => f.name.token) =
        (p.functions.toList.map fun f => f.name.token) ∧
      ∃ main last blocks, c.FlatLines p main last blocks := by
  rcases exists_tokens_of_compile compiled with ⟨tokens, read, compiled⟩
  rcases exists_program_of_compileTokens compiled with ⟨p, parsed, compiled⟩
  rcases compileProgram_eq_ok compiled with ⟨clean, _, rfl⟩
  have named := wellNamed_of_parse read parsed
  have declared := Program.numbered_declaredNames clean
  have settled := settled_of_parse read parsed clean
  -- the lines are those of `q`: adding types changes none of them
  let q := p.bindNames p.scopeTree
  let tagged := q.annotate p.scopeTree
  have tokensKept : (tagged.functions.toList.map fun f => f.name.token) =
      p.functions.toList.map fun f => f.name.token := p.tokens_functions_annotate _ _
  have lines : tagged.mainLines ++ tagged.lastMainLine :: tagged.blocks.flatten =
      q.numberedLines := by
    rw [← tagged.numberedLines_eq, q.numberedLines_annotate]
  refine ⟨tokens, p, read, parsed, functions_before_of_parse read parsed, tokensKept,
    tagged.mainLines, tagged.lastMainLine, tagged.blocks, ?_, ?_, ?_, ?_, ?_, ?_, ?_, ?_, ?_⟩
  · rw [lines]
    have written : tagged.basic = q.basic := q.basic_annotate p.scopeTree
    exact written ▸ hasLines_renderLines (Program.unbroken_listing declared settled)
  · rw [lines]
    exact indentation_of_mem_numberLines
  · rw [← tagged.numberStatements_mainStatements]
    exact tagged.listedBy_main
  · exact tagged.isInner_of_mem_mainLines
  · rfl
  · have lengths := congrArg List.length tokensKept
    rw [List.length_map, List.length_map, Forest.length_toList p.functions] at lengths
    exact (length_functionBlocks _ _).trans lengths
  · intro k block found
    rcases exists_function_of_block found with ⟨f, isFunction, start, rfl⟩
    exact ⟨f, isFunction, f.listedBy start⟩
  · intro k block found
    exact Program.functionBlock_of_clean named clean p.scopeTree found
  · rw [lines]
    exact Program.count_subNames_of_called named clean settled

/-- A program with one global and a function inside a function: two blocks, and the second one
counts its parameters behind the global and the variables of the first one. -/
theorem functions_flattened_nested :
    ∃ c p main last first second, compile nestedSource "nested.spl" = .ok c ∧
      c.FlatLines p main last [first, second] ∧
      FunctionBlock "f1" ⟨"v2", "v3", "v4"⟩ first ∧
      FunctionBlock "f2" ⟨"v8", "v9", "v10"⟩ second := by
  rcases nestedSource_evaluated with ⟨tokens, p, read, parsed, resolved, checked, two, one⟩
  have compiled :=
    calc compile nestedSource "nested.spl"
        = compileTokens tokens := compile_of_ok read
      _ = compileProgram p := compileTokens_of_ok parsed
      _ = .ok _ :=
          compileProgram_of_clean (List.map_eq_nil_iff.1 resolved) (List.isEmpty_iff.1 checked)
  rcases functions_flattened compiled with
    ⟨tokens', p', read', parsed', _, _, main, last, blocks, flat⟩
  cases read.symm.trans read'
  cases parsed.symm.trans parsed'
  rw [Forest.length_toList] at two
  rcases List.length_eq_two.1 (flat.count.trans two) with ⟨first, second, rfl⟩
  have firstBlock := flat.isBlock 0 first rfl
  have secondBlock := flat.isBlock 1 second rfl
  rw [one] at firstBlock secondBlock
  exact ⟨_, p, main, last, first, second, compiled, flat, firstBlock, secondBlock⟩

end SplBasic
