import Mathlib.Data.List.Basic
import SplBasic.Program.Basic

/-!
# Traversing a program

Passes, renamings and comparisons change a program part by part and keep its shape. A `Change` says
what becomes of each part, and `map` carries it through all layers of the syntax. What two changes
in a row do, and what a change does to the parts of a program, is proved here once; a pass that is
an instance of `map` gets it from here.

* `Change` : what becomes of words, names, literals and tags,
* `Block.map_map` : two changes in a row are one change,
* `Commands.parts` : words, names and literals of commands in source order,
* `Commands.parts_map` : changing commands changes their parts one by one,
* `Commands.uses_map` : so it changes the names that they use,
* `Block.mapNames_eq_map` : mapping names is a change that leaves all else alone.
-/

namespace SplBasic

/-- What becomes of the parts of a program: of words and operators, of names of variables and of
functions, of literals, and of type tags. -/
@[ext] structure Change where
  word : Token → Token
  onVariable : Name → Name
  onFunction : Name → Name
  onLiteral : Literal → Literal
  tag : Ty → Ty

namespace Change

/-- The first change, and behind it the second one. -/
def andThen (κ μ : Change) : Change :=
  ⟨μ.word ∘ κ.word, μ.onVariable ∘ κ.onVariable, μ.onFunction ∘ κ.onFunction,
    μ.onLiteral ∘ κ.onLiteral, μ.tag ∘ κ.tag⟩

/-- The change of names that leaves all else alone. -/
def ofNames (f g : Name → Name) : Change :=
  ⟨id, f, g, id, id⟩

end Change

/-! ## Changing trees -/

section Map

variable (κ : Change)

def Atom.map : Atom → Atom
  | .name n => .name (κ.onVariable n)
  | .literal l => .literal (κ.onLiteral l)

def Expr.map : Expr → Expr
  | .atom a => .atom (a.map κ)
  | .unary op token operand tag => .unary op (κ.word token) operand.map (κ.tag tag)
  | .binary op token left right tag => .binary op (κ.word token) left.map right.map (κ.tag tag)

def Call.map (c : Call) : Call :=
  ⟨κ.onFunction c.callee, c.args.map (Atom.map κ), κ.tag c.tag⟩

def Term.map : Term → Term
  | .expr e => .expr (e.map κ)
  | .call c => .call (c.map κ)

def SimpleCommand.map : SimpleCommand → SimpleCommand
  | .skip keyword => .skip (κ.word keyword)
  | .halt keyword => .halt (κ.word keyword)
  | .print keyword value => .print (κ.word keyword) (value.map κ)
  | .giveBack keyword value => .giveBack (κ.word keyword) (value.map κ)
  | .read target keyword => .read (κ.onVariable target) (κ.word keyword)
  | .assign target value => .assign (κ.onVariable target) (value.map κ)
  | .call c => .call (c.map κ)

def Brackets.map (brackets : Brackets) : Brackets :=
  ⟨κ.word brackets.opening, κ.word brackets.closing⟩

def Commands.map : Commands → Commands
  | .nil => .nil
  | .simple command tag rest => .simple (command.map κ) (κ.tag tag) rest.map
  | .ifThen keyword condition brackets body tag rest =>
    .ifThen (κ.word keyword) (condition.map κ) (brackets.map κ) body.map (κ.tag tag) rest.map
  | .ifThenElse keyword condition thenBrackets thenBody elseBrackets elseBody tag rest =>
    .ifThenElse (κ.word keyword) (condition.map κ) (thenBrackets.map κ) thenBody.map
      (elseBrackets.map κ) elseBody.map (κ.tag tag) rest.map

def Block.map (block : Block) : Block :=
  ⟨block.brackets.map κ, block.commands.map κ⟩

def VarDecl.map (decl : VarDecl) : VarDecl :=
  ⟨κ.word decl.typeToken, decl.type, κ.onVariable decl.name⟩

def FunctionDecl.map (f : FunctionDecl) : FunctionDecl :=
  ⟨κ.word f.returnToken, f.returnType, κ.onFunction f.name, f.params.map κ.onVariable,
    f.locals.map (VarDecl.map κ), f.body.map κ, κ.word f.closing⟩

/-- The changed program. It still tells the source text that it was read from. -/
def Program.map (p : Program) : Program :=
  ⟨κ.word p.main, p.globals.map (VarDecl.map κ), p.block.map κ,
    p.functions.map (FunctionDecl.map κ), p.source⟩

end Map

/-! ## Two changes in a row -/

section Twice

variable (κ μ : Change)

theorem Atom.map_map (a : Atom) : (a.map κ).map μ = a.map (κ.andThen μ) := by
  cases a with
  | name n => rfl
  | literal l => rfl

/-- Two changes of an expression in a row are one change. -/
theorem Expr.map_map (e : Expr) : (e.map κ).map μ = e.map (κ.andThen μ) := by
  induction e with
  | atom a => exact congrArg Expr.atom (a.map_map κ μ)
  | unary op token operand tag ih =>
    simp only [map, ih]
    rfl
  | binary op token left right tag ihLeft ihRight =>
    simp only [map, ihLeft, ihRight]
    rfl

theorem Call.map_map (c : Call) : (c.map κ).map μ = c.map (κ.andThen μ) := by
  simp only [map, Triple.map, Atom.map_map]
  rfl

theorem Term.map_map (value : Term) : (value.map κ).map μ = value.map (κ.andThen μ) := by
  cases value with
  | expr e => exact congrArg Term.expr (e.map_map κ μ)
  | call c => exact congrArg Term.call (c.map_map κ μ)

theorem SimpleCommand.map_map (command : SimpleCommand) :
    (command.map κ).map μ = command.map (κ.andThen μ) := by
  cases command with
  | skip keyword => rfl
  | halt keyword => rfl
  | print keyword value => exact congrArg (SimpleCommand.print _) (value.map_map κ μ)
  | giveBack keyword value => exact congrArg (SimpleCommand.giveBack _) (value.map_map κ μ)
  | read target keyword => rfl
  | assign target value => exact congrArg (SimpleCommand.assign _) (value.map_map κ μ)
  | call c => exact congrArg SimpleCommand.call (c.map_map κ μ)

/-- Two changes of commands in a row are one change. -/
theorem Commands.map_map (cs : Commands) : (cs.map κ).map μ = cs.map (κ.andThen μ) := by
  induction cs with
  | nil => rfl
  | simple command tag rest ih =>
    simp only [map, command.map_map, ih]
    rfl
  | ifThen keyword condition brackets body tag rest ihBody ihRest =>
    simp only [map, condition.map_map, ihBody, ihRest]
    rfl
  | ifThenElse keyword condition thenBrackets thenBody elseBrackets elseBody tag rest ihThen ihElse
      ihRest =>
    simp only [map, condition.map_map, ihThen, ihElse, ihRest]
    rfl

/-- Two changes of a block in a row are one change. -/
theorem Block.map_map (block : Block) : (block.map κ).map μ = block.map (κ.andThen μ) :=
  congrArg (Block.mk _) (block.commands.map_map κ μ)

end Twice

/-! ## Parts of trees -/

/-- What was read from a single token: a word or an operator, a name, or a literal. -/
inductive Part
  | word (token : Token)
  | variable (name : Name)
  | function (name : Name)
  | literal (literal : Literal)

namespace Part

def token : Part → Token
  | word t => t
  | .variable n => n.token
  | function n => n.token
  | literal l => l.token

/-- The part as a used name. -/
def use? : Part → Option NameUse
  | .variable n => some (.variable n)
  | function n => some (.callee n)
  | _ => none

def map (κ : Change) : Part → Part
  | word t => word (κ.word t)
  | .variable n => .variable (κ.onVariable n)
  | function n => function (κ.onFunction n)
  | literal l => literal (κ.onLiteral l)

end Part

def Atom.parts : Atom → List Part
  | .name n => [.variable n]
  | .literal l => [.literal l]

def Expr.parts : Expr → List Part
  | .atom a => a.parts
  | .unary _ token operand _ => .word token :: operand.parts
  | .binary _ token left right _ => .word token :: (left.parts ++ right.parts)

def Call.parts (c : Call) : List Part :=
  .function c.callee :: c.args.toList.flatMap Atom.parts

def Term.parts : Term → List Part
  | .expr e => e.parts
  | .call c => c.parts

def SimpleCommand.parts : SimpleCommand → List Part
  | .skip keyword => [.word keyword]
  | .halt keyword => [.word keyword]
  | .print keyword value => .word keyword :: value.parts
  | .giveBack keyword value => .word keyword :: value.parts
  | .read target keyword => [.variable target, .word keyword]
  | .assign target value => .variable target :: value.parts
  | .call c => c.parts

/-- The parts of the commands in source order; the words around blocks are left out. -/
def Commands.parts : Commands → List Part
  | .nil => []
  | .simple command _ rest => command.parts ++ rest.parts
  | .ifThen keyword condition _ body _ rest =>
    .word keyword :: (condition.parts ++ body.parts ++ rest.parts)
  | .ifThenElse keyword condition _ thenBody _ elseBody _ rest =>
    .word keyword :: (condition.parts ++ thenBody.parts ++ elseBody.parts ++ rest.parts)

def VarDecl.parts (decl : VarDecl) : List Part :=
  [.word decl.typeToken, .variable decl.name]

/-- The parts of the function in source order, without those of the functions inside it. -/
def FunctionDecl.parts (f : FunctionDecl) : List Part :=
  .word f.returnToken :: .function f.name :: (f.params.toList.map .variable
    ++ (f.locals.toList.flatMap VarDecl.parts ++ f.body.commands.parts))

/-- The parts of the program in source order. -/
def Program.parts (p : Program) : List Part :=
  .word p.main :: (p.globals.flatMap VarDecl.parts
    ++ (p.block.commands.parts ++ p.functions.toList.flatMap FunctionDecl.parts))

/-! ## Parts of changed trees -/

section Parts

variable (κ : Change)

theorem Atom.parts_map (a : Atom) : (a.map κ).parts = a.parts.map (Part.map κ) := by
  cases a with
  | name n => rfl
  | literal l => rfl

/-- Changing an expression changes its parts one by one. -/
theorem Expr.parts_map (e : Expr) : (e.map κ).parts = e.parts.map (Part.map κ) := by
  induction e with
  | atom a => exact a.parts_map κ
  | unary op token operand tag ih => exact congrArg (Part.word (κ.word token) :: ·) ih
  | binary op token left right tag ihLeft ihRight =>
    rw [map, parts, ihLeft, ihRight, ← List.map_append]
    rfl

theorem Call.parts_map (c : Call) : (c.map κ).parts = c.parts.map (Part.map κ) := by
  rw [map, parts, Triple.toList_map, List.flatMap_map, parts, List.map_cons, List.map_flatMap]
  simp only [Atom.parts_map]
  rfl

theorem Term.parts_map (value : Term) : (value.map κ).parts = value.parts.map (Part.map κ) := by
  cases value with
  | expr e => exact e.parts_map κ
  | call c => exact c.parts_map κ

theorem SimpleCommand.parts_map (command : SimpleCommand) :
    (command.map κ).parts = command.parts.map (Part.map κ) := by
  cases command with
  | skip keyword => rfl
  | halt keyword => rfl
  | print keyword value => exact congrArg (_ :: ·) (value.parts_map κ)
  | giveBack keyword value => exact congrArg (_ :: ·) (value.parts_map κ)
  | read target keyword => rfl
  | assign target value => exact congrArg (_ :: ·) (value.parts_map κ)
  | call c => exact c.parts_map κ

/-- Changing commands changes their parts one by one. -/
theorem Commands.parts_map (cs : Commands) : (cs.map κ).parts = cs.parts.map (Part.map κ) := by
  induction cs with
  | nil => rfl
  | simple command tag rest ih => rw [map, parts, command.parts_map, ih, parts, List.map_append]
  | ifThen keyword condition brackets body tag rest ihBody ihRest =>
    rw [map, parts, condition.parts_map, ihBody, ihRest, ← List.map_append, ← List.map_append]
    rfl
  | ifThenElse keyword condition thenBrackets thenBody elseBrackets elseBody tag rest ihThen ihElse
      ihRest =>
    rw [map, parts, condition.parts_map, ihThen, ihElse, ihRest, ← List.map_append,
      ← List.map_append, ← List.map_append]
    rfl

/-- Changing a function changes its parts one by one. -/
theorem FunctionDecl.parts_map (f : FunctionDecl) : (f.map κ).parts = f.parts.map (Part.map κ) := by
  have locals : (f.locals.map (VarDecl.map κ)).toList.flatMap VarDecl.parts =
      (f.locals.toList.flatMap VarDecl.parts).map (Part.map κ) := rfl
  have params : (f.params.map κ.onVariable).toList.map Part.variable =
      (f.params.toList.map Part.variable).map (Part.map κ) := rfl
  simp only [parts, List.map_cons, List.map_append, ← locals, ← params, ← Commands.parts_map]
  rfl

/-- Changing a program changes its parts one by one. -/
theorem Program.parts_map (p : Program) : (p.map κ).parts = p.parts.map (Part.map κ) := by
  have globals : (p.globals.map (VarDecl.map κ)).flatMap VarDecl.parts =
      (p.globals.flatMap VarDecl.parts).map (Part.map κ) := by
    rw [List.flatMap_map, List.map_flatMap]
    rfl
  have functions : (p.functions.map (FunctionDecl.map κ)).toList.flatMap FunctionDecl.parts =
      (p.functions.toList.flatMap FunctionDecl.parts).map (Part.map κ) := by
    rw [Forest.toList_map, List.flatMap_map, List.map_flatMap]
    simp only [FunctionDecl.parts_map]
  simp only [parts, List.map_cons, List.map_append, ← globals, ← functions, ← Commands.parts_map]
  rfl

end Parts

/-! ## Names of changed trees -/

/-- Applies `f` to the variable or `g` to the callee. -/
def NameUse.mapNames (f g : Name → Name) : NameUse → NameUse
  | .variable name => .variable (f name)
  | .callee name => .callee (g name)

theorem Atom.uses_eq (a : Atom) : a.uses = a.parts.filterMap Part.use? := by
  cases a with
  | name n => rfl
  | literal l => rfl

/-- The used names of an expression are names among its parts. -/
theorem Expr.uses_eq (e : Expr) : e.uses = e.parts.filterMap Part.use? := by
  induction e with
  | atom a => exact a.uses_eq
  | unary op token operand tag ih => exact ih
  | binary op token left right tag ihLeft ihRight =>
    rw [uses, ihLeft, ihRight, ← List.filterMap_append]
    rfl

theorem Call.uses_eq (c : Call) : c.uses = c.parts.filterMap Part.use? := by
  have args : c.args.toList.flatMap Atom.uses =
      (c.args.toList.flatMap Atom.parts).filterMap Part.use? := by
    simp only [List.filterMap_flatMap, ← Atom.uses_eq]
  exact congrArg (NameUse.callee c.callee :: ·) args

theorem Term.uses_eq (value : Term) : value.uses = value.parts.filterMap Part.use? := by
  cases value with
  | expr e => exact e.uses_eq
  | call c => exact c.uses_eq

theorem SimpleCommand.uses_eq (command : SimpleCommand) :
    command.uses = command.parts.filterMap Part.use? := by
  cases command with
  | skip keyword => rfl
  | halt keyword => rfl
  | print keyword value => exact value.uses_eq
  | giveBack keyword value => exact value.uses_eq
  | read target keyword => rfl
  | assign target value => exact congrArg (NameUse.variable target :: ·) value.uses_eq
  | call c => exact c.uses_eq

/-- The used names of commands are names among their parts. -/
theorem Commands.uses_eq (cs : Commands) : cs.uses = cs.parts.filterMap Part.use? := by
  induction cs with
  | nil => rfl
  | simple command tag rest ih => rw [uses, command.uses_eq, ih, parts, List.filterMap_append]
  | ifThen keyword condition brackets body tag rest ihBody ihRest =>
    rw [uses, condition.uses_eq, ihBody, ihRest, ← List.filterMap_append, ← List.filterMap_append]
    rfl
  | ifThenElse keyword condition thenBrackets thenBody elseBrackets elseBody tag rest ihThen ihElse
      ihRest =>
    rw [uses, condition.uses_eq, ihThen, ihElse, ihRest, ← List.filterMap_append,
      ← List.filterMap_append, ← List.filterMap_append]
    rfl

/-- Changing commands changes the names that they use. -/
theorem Commands.uses_map (κ : Change) (cs : Commands) :
    (cs.map κ).uses = cs.uses.map (NameUse.mapNames κ.onVariable κ.onFunction) := by
  rw [uses_eq, parts_map, uses_eq, List.filterMap_map, List.map_filterMap]
  apply List.filterMap_congr
  intro part _
  cases part with
  | word t => rfl
  | «variable» n => rfl
  | function n => rfl
  | literal l => rfl

/-! ## Mapping names -/

section MapNames

variable (f g : Name → Name)

theorem Atom.mapNames_eq_map (a : Atom) : a.mapNames f = a.map (.ofNames f g) := by
  cases a with
  | name n => rfl
  | literal l => rfl

/-- Mapping the names of an expression is a change that leaves all else alone. -/
theorem Expr.mapNames_eq_map (e : Expr) : e.mapNames f = e.map (.ofNames f g) := by
  induction e with
  | atom a => exact congrArg Expr.atom (a.mapNames_eq_map f g)
  | unary op token operand tag ih => exact congrArg (Expr.unary op token · tag) ih
  | binary op token left right tag ihLeft ihRight =>
    exact congrArg₂ (Expr.binary op token · · tag) ihLeft ihRight

theorem Call.mapNames_eq_map (c : Call) : c.mapNames f g = c.map (.ofNames f g) := by
  rw [mapNames, funext (Atom.mapNames_eq_map f g)]
  rfl

theorem Term.mapNames_eq_map (value : Term) : value.mapNames f g = value.map (.ofNames f g) := by
  cases value with
  | expr e => exact congrArg Term.expr (e.mapNames_eq_map f g)
  | call c => exact congrArg Term.call (c.mapNames_eq_map f g)

theorem SimpleCommand.mapNames_eq_map (command : SimpleCommand) :
    command.mapNames f g = command.map (.ofNames f g) := by
  cases command with
  | skip keyword => rfl
  | halt keyword => rfl
  | print keyword value => exact congrArg (SimpleCommand.print _) (value.mapNames_eq_map f g)
  | giveBack keyword value => exact congrArg (SimpleCommand.giveBack _) (value.mapNames_eq_map f g)
  | read target keyword => rfl
  | assign target value => exact congrArg (SimpleCommand.assign _) (value.mapNames_eq_map f g)
  | call c => exact congrArg SimpleCommand.call (c.mapNames_eq_map f g)

/-- Mapping the names of commands is a change that leaves all else alone. -/
theorem Commands.mapNames_eq_map (cs : Commands) : cs.mapNames f g = cs.map (.ofNames f g) := by
  induction cs with
  | nil => rfl
  | simple command tag rest ih =>
    rw [mapNames, command.mapNames_eq_map, ih]
    rfl
  | ifThen keyword condition brackets body tag rest ihBody ihRest =>
    rw [mapNames, condition.mapNames_eq_map f g, ihBody, ihRest]
    rfl
  | ifThenElse keyword condition thenBrackets thenBody elseBrackets elseBody tag rest ihThen ihElse
      ihRest =>
    rw [mapNames, condition.mapNames_eq_map f g, ihThen, ihElse, ihRest]
    rfl

/-- Mapping the names of a block is a change that leaves all else alone. -/
theorem Block.mapNames_eq_map (block : Block) : block.mapNames f g = block.map (.ofNames f g) :=
  congrArg (Block.mk block.brackets) (block.commands.mapNames_eq_map f g)

/-- Mapping names twice is mapping them once. -/
theorem Block.mapNames_mapNames (f' g' : Name → Name) (block : Block) :
    (block.mapNames f g).mapNames f' g' = block.mapNames (f' ∘ f) (g' ∘ g) := by
  rw [mapNames_eq_map, mapNames_eq_map, mapNames_eq_map, map_map]
  rfl

/-- Mapping names commutes with a change of a block if it does so for each name. -/
theorem Block.mapNames_map {κ : Change} {f f' g g' : Name → Name}
    (onVariables : ∀ n, f' (κ.onVariable n) = κ.onVariable (f n))
    (onFunctions : ∀ n, g' (κ.onFunction n) = κ.onFunction (g n)) (block : Block) :
    (block.map κ).mapNames f' g' = (block.mapNames f g).map κ := by
  have changes : κ.andThen (.ofNames f' g') = (Change.ofNames f g).andThen κ :=
    Change.ext rfl (funext onVariables) (funext onFunctions) rfl rfl
  rw [mapNames_eq_map, mapNames_eq_map, map_map, map_map, changes]

/-- Mapping the names of commands maps the names that they use. -/
theorem Commands.uses_mapNames (cs : Commands) :
    (cs.mapNames f g).uses = cs.uses.map (NameUse.mapNames f g) := by
  rw [mapNames_eq_map, uses_map]
  rfl

end MapNames

/-! ## Names that stay -/

section Fixed

variable {f g : Name → Name}

theorem Atom.mapNames_eq_self {a : Atom} (fixed : ∀ use ∈ a.uses, use.mapNames f g = use) :
    a.mapNames f = a := by
  cases a with
  | name n =>
    have same : NameUse.variable (f n) = .variable n := fixed _ List.mem_cons_self
    exact congrArg Atom.name (NameUse.variable.inj same)
  | literal l => rfl

/-- If each used name is left as it is, so is the expression. -/
theorem Expr.mapNames_eq_self {e : Expr} (fixed : ∀ use ∈ e.uses, use.mapNames f g = use) :
    e.mapNames f = e := by
  induction e with
  | atom a => exact congrArg Expr.atom (Atom.mapNames_eq_self fixed)
  | unary op token operand tag ih => exact congrArg (Expr.unary op token · tag) (ih fixed)
  | binary op token left right tag ihLeft ihRight =>
    rcases List.forall_mem_append.1 fixed with ⟨inLeft, inRight⟩
    exact congrArg₂ (Expr.binary op token · · tag) (ihLeft inLeft) (ihRight inRight)

theorem Call.mapNames_eq_self {c : Call} (fixed : ∀ use ∈ c.uses, use.mapNames f g = use) :
    c.mapNames f g = c := by
  rcases List.forall_mem_cons.1 fixed with ⟨callee, inArgs⟩
  have same : g c.callee = c.callee := NameUse.callee.inj callee
  have args : ∀ a ∈ c.args.toList, a.mapNames f = a := fun a isArg =>
    Atom.mapNames_eq_self fun use used => inArgs use (List.mem_flatMap.2 ⟨a, isArg, used⟩)
  simp only [Triple.toList, List.forall_mem_cons] at args
  simp only [mapNames, Triple.map, same, args]

theorem Term.mapNames_eq_self {value : Term} (fixed : ∀ use ∈ value.uses, use.mapNames f g = use) :
    value.mapNames f g = value := by
  cases value with
  | expr e => exact congrArg Term.expr (Expr.mapNames_eq_self fixed)
  | call c => exact congrArg Term.call (Call.mapNames_eq_self fixed)

/-- If each used name is left as it is, so is the command. -/
theorem SimpleCommand.mapNames_eq_self {command : SimpleCommand}
    (fixed : ∀ use ∈ command.uses, use.mapNames f g = use) : command.mapNames f g = command := by
  cases command with
  | skip keyword => rfl
  | halt keyword => rfl
  | print keyword value => exact congrArg (SimpleCommand.print _) (Atom.mapNames_eq_self fixed)
  | giveBack keyword value =>
    exact congrArg (SimpleCommand.giveBack _) (Atom.mapNames_eq_self fixed)
  | read target keyword =>
    have same : NameUse.variable (f target) = .variable target := fixed _ List.mem_cons_self
    exact congrArg (SimpleCommand.read · keyword) (NameUse.variable.inj same)
  | assign target value =>
    rcases List.forall_mem_cons.1 fixed with ⟨same, inValue⟩
    exact congrArg₂ SimpleCommand.assign (NameUse.variable.inj same)
      (Term.mapNames_eq_self inValue)
  | call c => exact congrArg SimpleCommand.call (Call.mapNames_eq_self fixed)

/-- If each used name is left as it is, so are the commands. -/
theorem Commands.mapNames_eq_self {cs : Commands}
    (fixed : ∀ use ∈ cs.uses, use.mapNames f g = use) : cs.mapNames f g = cs := by
  induction cs with
  | nil => rfl
  | simple command tag rest ih =>
    rcases List.forall_mem_append.1 fixed with ⟨here, behind⟩
    rw [mapNames, SimpleCommand.mapNames_eq_self here, ih behind]
  | ifThen keyword condition brackets body tag rest ihBody ihRest =>
    simp only [uses, List.forall_mem_append] at fixed
    rcases fixed with ⟨⟨here, inBody⟩, behind⟩
    rw [mapNames, Expr.mapNames_eq_self here, ihBody inBody, ihRest behind]
  | ifThenElse keyword condition thenBrackets thenBody elseBrackets elseBody tag rest ihThen ihElse
      ihRest =>
    simp only [uses, List.forall_mem_append] at fixed
    rcases fixed with ⟨⟨⟨here, inThen⟩, inElse⟩, behind⟩
    rw [mapNames, Expr.mapNames_eq_self here, ihThen inThen, ihElse inElse, ihRest behind]

end Fixed

end SplBasic
