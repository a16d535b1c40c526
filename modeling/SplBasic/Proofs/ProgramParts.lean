import SplBasic.Listing.Lower
import SplBasic.Proofs.ProgramNames
import SplBasic.Typing.Check

/-!
# What listings and types depend on

All that a listing takes over from a program are the texts of names and the lexemes of literals.
All that the type checker looks at are declared types; it tells of places and spellings.

* `Program.listing_map` : a change that keeps texts and lexemes keeps the listing,
* `Program.typeProblems_map` : a change that keeps declared types moves the type problems,
* `Commands.writtenFrom_of_mem` : every statement of a block is a jump or is written from an
  expression or a command, whose parts are parts of the block.
-/

namespace SplBasic

namespace Part

/-- What a listing shows of the part. -/
def shown : Part → String
  | word _ => ""
  | .variable n => n.text
  | function n => n.text
  | literal l => l.token.lexeme

end Part

namespace Change

/-- The change keeps what a listing shows of the parts. -/
def Keeps (κ : Change) (parts : List Part) : Prop :=
  ∀ part ∈ parts, (part.map κ).shown = part.shown

end Change

/-! ## Changes that are not listed -/

section Listed

variable {κ : Change}

theorem Atom.basic_map {a : Atom} (keeps : κ.Keeps a.parts) : (a.map κ).basic = a.basic := by
  cases a with
  | name n => exact keeps (.variable n) List.mem_cons_self
  | literal l => exact keeps (.literal l) List.mem_cons_self

/-- The text of an expression shows its names and literals only. -/
theorem Expr.basic_map {e : Expr} (keeps : κ.Keeps e.parts) : (e.map κ).basic = e.basic := by
  induction e with
  | atom a => exact Atom.basic_map keeps
  | unary op token operand tag ih =>
    have same := ih (List.forall_mem_cons.1 keeps).2
    cases op with
    | not => rw [map, basic, same, basic]
    | sqrt => rw [map, basic, same, basic]
  | binary op token left right tag ihLeft ihRight =>
    rcases List.forall_mem_append.1 (List.forall_mem_cons.1 keeps).2 with ⟨keepsLeft, keepsRight⟩
    rw [map, basic, ihLeft keepsLeft, ihRight keepsRight, basic]

theorem Call.basic_map {c : Call} (keeps : κ.Keeps c.parts) : (c.map κ).basic = c.basic := by
  rcases List.forall_mem_cons.1 keeps with ⟨callee, keepsArgs⟩
  have text : (κ.onFunction c.callee).text = c.callee.text := callee
  have args : (c.args.map (Atom.map κ)).map Atom.basic = c.args.map Atom.basic := by
    have each : ∀ a ∈ c.args.toList, (a.map κ).basic = a.basic := fun a isArg =>
      Atom.basic_map fun part listed => keepsArgs part (List.mem_flatMap.2 ⟨a, isArg, listed⟩)
    simp only [Triple.toList, List.forall_mem_cons] at each
    simp only [Triple.map, each]
  rw [basic, map, text, args, basic]

theorem Term.basic_map {value : Term} (keeps : κ.Keeps value.parts) :
    (value.map κ).basic = value.basic := by
  cases value with
  | expr e => exact Expr.basic_map keeps
  | call c => exact Call.basic_map keeps

/-- The statement of a command shows its names and literals only. -/
theorem SimpleCommand.statement_map (position : Nat) {command : SimpleCommand}
    (keeps : κ.Keeps command.parts) :
    (command.map κ).statement position = command.statement position := by
  cases command with
  | skip keyword => rfl
  | halt keyword => rfl
  | print keyword value =>
    exact congrArg Statement.print (Atom.basic_map (List.forall_mem_cons.1 keeps).2)
  | giveBack keyword value =>
    exact congrArg Statement.giveBack (Atom.basic_map (List.forall_mem_cons.1 keeps).2)
  | read target keyword =>
    exact congrArg Statement.input (keeps (.variable target) List.mem_cons_self)
  | assign target value =>
    rcases List.forall_mem_cons.1 keeps with ⟨text, keepsValue⟩
    exact congrArg₂ Statement.letVar text (Term.basic_map keepsValue)
  | call c => exact congrArg Statement.call (Call.basic_map keeps)

/-- A change keeps the number of statements. -/
theorem Commands.size_map (cs : Commands) : (cs.map κ).size = cs.size := by
  induction cs with
  | nil => rfl
  | simple command tag rest ih => rw [map, size, ih, size]
  | ifThen keyword condition brackets body tag rest ihBody ihRest =>
    rw [map, size, ihBody, ihRest, size]
  | ifThenElse keyword condition thenBrackets thenBody elseBrackets elseBody tag rest ihThen ihElse
      ihRest =>
    rw [map, size, ihThen, ihElse, ihRest, size]

theorem Commands.size_mapNames (f g : Name → Name) (cs : Commands) :
    (cs.mapNames f g).size = cs.size := by
  rw [mapNames_eq_map, size_map]

/-- The statements of commands show names and literals only; jumps depend on sizes. -/
theorem Commands.statements_map (start : Nat) {cs : Commands} (keeps : κ.Keeps cs.parts) :
    (cs.map κ).statements start = cs.statements start := by
  induction cs generalizing start with
  | nil => rfl
  | simple command tag rest ih =>
    rcases List.forall_mem_append.1 keeps with ⟨keepsFirst, keepsRest⟩
    rw [map, statements, SimpleCommand.statement_map _ keepsFirst, ih _ keepsRest, statements]
  | ifThen keyword condition brackets body tag rest ihBody ihRest =>
    simp only [Change.Keeps, parts, List.forall_mem_cons, List.forall_mem_append] at keeps
    rcases keeps with ⟨_, ⟨keepsCondition, keepsBody⟩, keepsRest⟩
    simp only [map, statements, Expr.basic_map keepsCondition, ihBody _ keepsBody,
      ihRest _ keepsRest, size_map]
  | ifThenElse keyword condition thenBrackets thenBody elseBrackets elseBody tag rest ihThen ihElse
      ihRest =>
    simp only [Change.Keeps, parts, List.forall_mem_cons, List.forall_mem_append] at keeps
    rcases keeps with ⟨_, ⟨⟨keepsCondition, keepsThen⟩, keepsElse⟩, keepsRest⟩
    simp only [map, statements, Expr.basic_map keepsCondition, ihThen _ keepsThen,
      ihElse _ keepsElse, ihRest _ keepsRest, size_map]

/-- So do the lines of a function. -/
theorem FunctionDecl.listing_map (start : Nat) {f : FunctionDecl} (keeps : κ.Keeps f.parts) :
    (f.map κ).listing start = f.listing start := by
  simp only [Change.Keeps, parts, List.forall_mem_cons, List.forall_mem_append] at keeps
  rcases keeps with ⟨_, name, params, _, body⟩
  have nameText : (κ.onFunction f.name).text = f.name.text := name
  have paramTexts : (f.params.map κ.onVariable).map Name.text = f.params.map Name.text := by
    simp only [Triple.toList, List.map_cons, List.map_nil, List.forall_mem_cons] at params
    exact (Triple.mk.injEq _ _ _ _ _ _).mpr ⟨params.1, params.2.1, params.2.2.1⟩
  simp only [listing, map, Block.map, nameText, paramTexts, Commands.statements_map _ body]

/-- So do the lines of functions, as each function keeps its size. -/
theorem functionListings_map (start : Nat) {fs : List FunctionDecl}
    (keeps : ∀ f ∈ fs, κ.Keeps f.parts) :
    functionListings start (fs.map (FunctionDecl.map κ)) = functionListings start fs := by
  induction fs generalizing start with
  | nil => rfl
  | cons f fs ih =>
    rcases List.forall_mem_cons.1 keeps with ⟨keepsFirst, keepsRest⟩
    have lines : (f.map κ).lineCount = f.lineCount :=
      congrArg (3 + ·) f.body.commands.size_map
    -- the first function takes as many lines as before, so the next one starts at the same line
    rw [List.map_cons, functionListings, functionListings,
      FunctionDecl.listing_map start keepsFirst, lines, ih _ keepsRest]

/-- A change that keeps the texts of names and the lexemes of literals keeps the listing. -/
theorem Program.listing_map {p : Program} (keeps : κ.Keeps p.parts) :
    (p.map κ).listing = p.listing := by
  simp only [Change.Keeps, parts, List.forall_mem_cons, List.forall_mem_append] at keeps
  rcases keeps with ⟨_, globals, main, functions⟩
  have prologues : (p.map κ).prologue = p.prologue := by
    rw [prologue, map, List.map_map, prologue]
    apply List.map_congr_left
    intro decl isGlobal
    have text : (κ.onVariable decl.name).text = decl.name.text :=
      globals (.variable decl.name) (List.mem_flatMap.2 ⟨decl, isGlobal, by simp [VarDecl.parts]⟩)
    exact congrArg (Statement.letVar · decl.type.initialValue) text
  have statements : (p.map κ).mainStatements = p.mainStatements := by
    have count : (p.map κ).globals.length = p.globals.length := List.length_map _
    have block : (p.map κ).block.commands.statements p.globals.length = _ :=
      Commands.statements_map p.globals.length main
    rw [mainStatements, prologues, count, block, mainStatements]
  have each : ∀ f ∈ p.functions.toList, κ.Keeps f.parts := fun f isFunction part listed =>
    functions part (List.mem_flatMap.2 ⟨f, isFunction, listed⟩)
  rw [listing, statements, map, Forest.toList_map, functionListings_map _ each, listing]

end Listed

/-! ## Changes that types do not depend on -/

/-- The error with other names in it. -/
def TypeError.mapNames (f : String → String) : TypeError → TypeError
  | assignmentMismatch name expected found => assignmentMismatch (f name) expected found
  | inputNotNum name found => inputNotNum (f name) found
  | conditionNotBool found => conditionNotBool found
  | operandMismatch op expected found => operandMismatch op expected found
  | callArgumentNotNum name position found => callArgumentNotNum (f name) position found
  | returnMismatch function expected found => returnMismatch (f function) expected found
  | returnOutsideFunction => returnOutsideFunction
  | unknownSymbol name => unknownSymbol (f name)

/-- The problem at another place and with other names in it. -/
def movedProblem (place : Position → Position) (spell : String → String) (l : Located TypeError) :
    Located TypeError :=
  ⟨l.cause.mapNames spell, place l.pos⟩

def Enclosing.respelt (spell : String → String) (f : Enclosing) : Enclosing :=
  { f with name := spell f.name }

/-- The second name stands where the first one is moved to, is spelt as it is respelt, and is
declared with the same type. -/
structure Name.Moved (place : Position → Position) (spell : String → String)
    (scopes scopes' : ScopeTree) (kind : SymbolKind) (n n' : Name) : Prop where
  pos : n'.pos = place n.pos
  source : n'.source = spell n.source
  declared : n'.declaredType? scopes' kind = n.declaredType? scopes kind

/-- The change moves what types are told of: places and spellings change as given, and types stay
as they are declared. -/
structure Change.Moves (κ : Change) (place : Position → Position) (spell : String → String)
    (scopes scopes' : ScopeTree) : Prop where
  word : ∀ t, (κ.word t).pos = place t.pos
  onVariable : ∀ n : Name, n.Moved place spell scopes scopes' .variable (κ.onVariable n)
  onFunction : ∀ n : Name, n.Moved place spell scopes scopes' .function (κ.onFunction n)
  onLiteral : ∀ l, (κ.onLiteral l).token.pos = place l.token.pos
  literalType : ∀ l, (κ.onLiteral l).type = l.type

section Types

variable {place : Position → Position} {spell : String → String} {scopes scopes' : ScopeTree}

/-- A mismatch is reported at the moved place, with the names respelt. -/
theorem mismatch_moved (expected found : Ty) {cause cause' : TypeError} {pos pos' : Position}
    (moved : pos' = place pos) (same : cause' = cause.mapNames spell) :
    mismatch expected found cause' pos' =
      (mismatch expected found cause pos).map (movedProblem place spell) := by
  subst moved same
  unfold mismatch
  split
  · rfl
  · rfl

namespace Name.Moved

variable {kind : SymbolKind} {n n' : Name} (moved : n.Moved place spell scopes scopes' kind n')

include moved

theorem typeIn : n'.typeIn scopes' kind = n.typeIn scopes kind := by
  rw [Name.typeIn, moved.declared, Name.typeIn]

/-- A moved name has the moved problem. -/
theorem typeProblems :
    n'.typeProblems scopes' kind = (n.typeProblems scopes kind).map (movedProblem place spell) := by
  rw [Name.typeProblems, moved.declared, moved.source, moved.pos, Name.typeProblems]
  cases n.declaredType? scopes kind with
  | some ty => rfl
  | none => rfl

end Name.Moved

variable {κ : Change} (moves : κ.Moves place spell scopes scopes')

include moves

/-- Places are moved. -/
theorem Atom.pos_map (a : Atom) : (a.map κ).pos = place a.pos := by
  cases a with
  | name n => exact (moves.onVariable n).pos
  | literal l => exact moves.onLiteral l

/-- Declared types are kept, so the types of atoms are. -/
theorem Atom.typeIn_map (a : Atom) : (a.map κ).typeIn scopes' = a.typeIn scopes := by
  cases a with
  | name n => exact (moves.onVariable n).typeIn
  | literal l => exact congrArg ValueType.ty (moves.literalType l)

theorem Atom.typeProblems_map (a : Atom) :
    (a.map κ).typeProblems scopes' = (a.typeProblems scopes).map (movedProblem place spell) := by
  cases a with
  | name n => exact (moves.onVariable n).typeProblems
  | literal l => rfl

theorem Expr.pos_map (e : Expr) : (e.map κ).pos = place e.pos := by
  cases e with
  | atom a => exact a.pos_map moves
  | unary op token operand tag => exact moves.word token
  | binary op token left right tag => exact moves.word token

/-- The types of expressions are kept. -/
theorem Expr.typeIn_map (e : Expr) : (e.map κ).typeIn scopes' = e.typeIn scopes := by
  cases e with
  | atom a => exact a.typeIn_map moves
  | unary op token operand tag => rfl
  | binary op token left right tag => rfl

theorem Expr.operandProblems_map (op : Operator) (operand : Expr) :
    (operand.map κ).operandProblems scopes' op =
      (operand.operandProblems scopes op).map (movedProblem place spell) := by
  rw [operandProblems, operand.typeIn_map moves]
  exact mismatch_moved _ _ (operand.pos_map moves) rfl

/-- The problems of an expression are moved one by one. -/
theorem Expr.typeProblems_map (e : Expr) :
    (e.map κ).typeProblems scopes' = (e.typeProblems scopes).map (movedProblem place spell) := by
  induction e with
  | atom a => exact a.typeProblems_map moves
  | unary op token operand tag ih =>
    rw [map, typeProblems, ih, operandProblems_map moves, typeProblems, List.map_append]
  | binary op token left right tag ihLeft ihRight =>
    simp only [map, typeProblems, ihLeft, ihRight, operandProblems_map moves, List.map_append]

theorem Call.argumentProblems_map (c : Call) (position : Nat) (arg : Atom) :
    (c.map κ).argumentProblems scopes' position (arg.map κ) =
      (c.argumentProblems scopes position arg).map (movedProblem place spell) := by
  rw [argumentProblems, arg.typeIn_map moves, arg.typeProblems_map moves, argumentProblems,
    List.map_append]
  refine congrArg _ (mismatch_moved _ _ (arg.pos_map moves) ?_)
  exact congrArg (TypeError.callArgumentNotNum · position _) (moves.onFunction c.callee).source

/-- The problems of a call are moved one by one. -/
theorem Call.typeProblems_map (c : Call) :
    (c.map κ).typeProblems scopes' = (c.typeProblems scopes).map (movedProblem place spell) := by
  simp only [typeProblems, List.map_append, ← argumentProblems_map moves,
    ← (moves.onFunction c.callee).typeProblems]
  rfl

theorem Term.typeIn_map (value : Term) : (value.map κ).typeIn scopes' = value.typeIn scopes := by
  cases value with
  | expr e => exact e.typeIn_map moves
  | call c => exact (moves.onFunction c.callee).typeIn

theorem Term.typeProblems_map (value : Term) :
    (value.map κ).typeProblems scopes' =
      (value.typeProblems scopes).map (movedProblem place spell) := by
  cases value with
  | expr e => exact e.typeProblems_map moves
  | call c => exact c.typeProblems_map moves

/-- The problems of a command are moved one by one; a return is judged by the function around it. -/
theorem SimpleCommand.typeProblems_map (outer : Option Enclosing) (command : SimpleCommand) :
    (command.map κ).typeProblems scopes' (outer.map (Enclosing.respelt spell)) =
      (command.typeProblems scopes outer).map (movedProblem place spell) := by
  cases command with
  | skip keyword => rfl
  | halt keyword => rfl
  | print keyword value => exact value.typeProblems_map moves
  | giveBack keyword value =>
    simp only [map, typeProblems, List.map_append, value.typeProblems_map moves,
      value.typeIn_map moves, moves.word]
    cases outer with
    | none => rfl
    | some f => exact congrArg _ (mismatch_moved _ _ (value.pos_map moves) rfl)
  | read target keyword =>
    have moved := moves.onVariable target
    simp only [map, typeProblems, List.map_append, moved.typeProblems, moved.typeIn]
    refine congrArg _ (mismatch_moved _ _ moved.pos ?_)
    exact congrArg (TypeError.inputNotNum · _) moved.source
  | assign target value =>
    have moved := moves.onVariable target
    simp only [map, typeProblems, List.map_append, moved.typeProblems, moved.typeIn,
      value.typeProblems_map moves, value.typeIn_map moves]
    congr 1
    -- without a known type there is nothing to compare
    split
    · rfl
    · refine mismatch_moved _ _ moved.pos ?_
      exact congrArg (TypeError.assignmentMismatch · _ _) moved.source
  | call c => exact c.typeProblems_map moves

/-- The problems of a condition are moved one by one. -/
theorem conditionProblems_map (condition : Expr) :
    conditionProblems scopes' (condition.map κ) =
      (conditionProblems scopes condition).map (movedProblem place spell) := by
  simp only [conditionProblems, List.map_append, condition.typeProblems_map moves,
    condition.typeIn_map moves, condition.pos_map moves]
  congr 1
  split
  · rfl
  · rfl

/-- The problems of commands are moved one by one, in all blocks inside them. -/
theorem Commands.typeProblems_map (outer : Option Enclosing) (cs : Commands) :
    (cs.map κ).typeProblems scopes' (outer.map (Enclosing.respelt spell)) =
      (cs.typeProblems scopes outer).map (movedProblem place spell) := by
  induction cs with
  | nil => rfl
  | simple command tag rest ih =>
    rw [map, typeProblems, command.typeProblems_map moves, ih, typeProblems, List.map_append]
  | ifThen keyword condition brackets body tag rest ihBody ihRest =>
    rw [map, typeProblems, conditionProblems_map moves, ihBody, ihRest, typeProblems,
      List.map_append, List.map_append]
  | ifThenElse keyword condition thenBrackets thenBody elseBrackets elseBody tag rest ihThen ihElse
      ihRest =>
    rw [map, typeProblems, conditionProblems_map moves, ihThen, ihElse, ihRest, typeProblems,
      List.map_append, List.map_append, List.map_append]

/-- The problems of a function are moved one by one. -/
theorem FunctionDecl.typeProblems_map (f : FunctionDecl) :
    (f.map κ).typeProblems scopes' =
      (f.typeProblems scopes).map (movedProblem place spell) := by
  have enclosing : (f.map κ).enclosing = f.enclosing.respelt spell :=
    congrArg (Enclosing.mk · f.returnType.ty) (moves.onFunction f.name).source
  rw [typeProblems, enclosing]
  exact f.body.commands.typeProblems_map moves (some f.enclosing)

/-- A change that moves places and names moves the type problems of a program, in the same
order. -/
theorem Program.typeProblems_map (p : Program) :
    (p.map κ).typeProblems scopes' = (p.typeProblems scopes).map (movedProblem place spell) := by
  have main : (p.map κ).block.commands.typeProblems scopes' none = _ :=
    p.block.commands.typeProblems_map moves none
  rw [typeProblems, main, map, Forest.toList_map, List.flatMap_map, typeProblems, List.map_append,
    List.map_flatMap]
  simp only [FunctionDecl.typeProblems_map moves]

end Types

/-! ## Statements of blocks -/

/-- What a statement is written from, wherever it jumps to: nothing at all, a condition, or a
command without blocks. All their parts have the given property. -/
inductive Statement.WrittenFrom (P : Part → Prop) : Statement → Prop
  | goto (target : Nat) : WrittenFrom P (.goto target)
  | branch {condition : Expr} (parts : ∀ part ∈ condition.parts, P part)
      (thenTarget elseTarget : Nat) :
      WrittenFrom P (.branch condition.basic thenTarget elseTarget)
  | simple {command : SimpleCommand} (parts : ∀ part ∈ command.parts, P part) (position : Nat) :
      WrittenFrom P (command.statement position)

/-- What all parts of a block have, those have too that a statement of the block is written
from. -/
theorem Commands.writtenFrom_of_mem {P : Part → Prop} {cs : Commands}
    (each : ∀ part ∈ cs.parts, P part) {start : Nat} :
    ∀ st ∈ cs.statements start, st.WrittenFrom P := by
  induction cs generalizing start with
  | nil => simp [statements]
  | simple command tag rest ih =>
    rcases List.forall_mem_append.1 each with ⟨here, behind⟩
    rw [statements, List.forall_mem_cons]
    exact ⟨.simple here start, ih behind⟩
  | ifThen keyword condition brackets body tag rest ihBody ihRest =>
    simp only [parts, List.forall_mem_cons, List.forall_mem_append] at each
    rcases each with ⟨_, ⟨here, inBody⟩, behind⟩
    simp only [statements, List.forall_mem_cons, List.forall_mem_append]
    exact ⟨.branch here _ _, ihBody inBody, ihRest behind⟩
  | ifThenElse keyword condition thenBrackets thenBody elseBrackets elseBody tag rest ihThen ihElse
      ihRest =>
    simp only [parts, List.forall_mem_cons, List.forall_mem_append] at each
    rcases each with ⟨_, ⟨⟨here, inThen⟩, inElse⟩, behind⟩
    simp only [statements, List.forall_mem_cons, List.forall_mem_append]
    -- between the blocks stands the jump over the second one, which is written from nothing
    exact ⟨.branch here _ _, ihThen inThen, .goto _, ihElse inElse, ihRest behind⟩

end SplBasic
