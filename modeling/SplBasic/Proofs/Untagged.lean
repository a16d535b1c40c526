import SplBasic.Proofs.ProgramParts
import SplBasic.Proofs.TypeChecking

/-!
# Programs without tags

Nothing looks at type tags: the types of names come from their declarations, those of operations
from the operators, and lowering writes no tag. So a program and the same program without tags are
checked (`typecheck_untag`) and lowered (`Program.listing_untag`) alike. As checking changes nothing
but tags, a program is lowered alike before and after it (`Program.basic_annotate`).
-/

namespace SplBasic

/-! ## Listings -/

namespace Change

/-- Tags are not shown. -/
theorem untag_keeps (parts : List Part) : untag.Keeps parts := by
  intro part _
  cases part with
  | word t => rfl
  | «variable» n => rfl
  | function n => rfl
  | literal l => rfl

end Change

namespace Program

/-- Lowering does not look at tags. -/
theorem listing_untag (p : Program) : p.untag.listing = p.listing :=
  listing_map (Change.untag_keeps p.parts)

/-- The listing does not show tags. -/
theorem basic_untag (p : Program) : p.untag.basic = p.basic := by
  rw [basic, listing_untag, basic]

/-- Checking a program does not change its listing. -/
theorem listing_annotate (scopes : ScopeTree) (p : Program) :
    (p.annotate scopes).listing = p.listing := by
  calc (p.annotate scopes).listing
      = (p.annotate scopes).untag.listing := (listing_untag _).symm
    _ = p.untag.listing := by rw [untag_annotate]
    _ = p.listing := listing_untag p

/-- Adding types does not change the listing. -/
theorem basic_annotate (scopes : ScopeTree) (p : Program) :
    (p.annotate scopes).basic = p.basic := by
  rw [basic, listing_annotate, basic]

end Program

/-! ## Types -/

theorem TypeError.mapNames_id (e : TypeError) : e.mapNames id = e := by
  cases e with
  | assignmentMismatch name expected found => rfl
  | inputNotNum name found => rfl
  | conditionNotBool found => rfl
  | operandMismatch op expected found => rfl
  | callArgumentNotNum name position found => rfl
  | returnMismatch function expected found => rfl
  | returnOutsideFunction => rfl
  | unknownSymbol name => rfl

theorem movedProblem_id : movedProblem id id = id :=
  funext fun l => congrArg (Located.mk · l.pos) l.cause.mapNames_id

section Types

variable (scopes : ScopeTree)

/-- Taking away tags moves nothing. -/
theorem Change.untag_moves : Change.untag.Moves id id scopes scopes where
  word _ := rfl
  onVariable _ := ⟨rfl, rfl, rfl⟩
  onFunction _ := ⟨rfl, rfl, rfl⟩
  onLiteral _ := rfl
  literalType _ := rfl

/-- The problems of a command do not depend on its tags. -/
theorem SimpleCommand.typeProblems_untag (outer : Option Enclosing) (command : SimpleCommand) :
    (command.map .untag).typeProblems scopes outer = command.typeProblems scopes outer := by
  have moved := command.typeProblems_map (Change.untag_moves scopes) outer
  rw [movedProblem_id, List.map_id] at moved
  rw [← moved]
  cases outer with
  | none => rfl
  | some f => rfl

theorem conditionProblems_untag (condition : Expr) :
    conditionProblems scopes (condition.map .untag) = conditionProblems scopes condition := by
  have moved := conditionProblems_map (Change.untag_moves scopes) condition
  rwa [movedProblem_id, List.map_id] at moved

/-- The problems of commands do not depend on their tags. -/
theorem Commands.typeProblems_untag (outer : Option Enclosing) (cs : Commands) :
    (cs.map .untag).typeProblems scopes outer = cs.typeProblems scopes outer := by
  have moved := cs.typeProblems_map (Change.untag_moves scopes) outer
  rw [movedProblem_id, List.map_id] at moved
  rw [← moved]
  cases outer with
  | none => rfl
  | some f => rfl

/-! Tags that are set do not depend on those that stood there before. -/

theorem Atom.annotate_untag (a : Atom) : (a.map .untag).annotate scopes = a.annotate scopes := by
  cases a with
  | name n => rfl
  | literal l => rfl

/-- Types are added anew, whatever the tags were. -/
theorem Expr.annotate_untag (e : Expr) : (e.map .untag).annotate scopes = e.annotate scopes := by
  induction e with
  | atom a => exact congrArg Expr.atom (a.annotate_untag scopes)
  | unary op token operand tag ih => exact congrArg (Expr.unary op token · _) ih
  | binary op token left right tag ihLeft ihRight =>
    exact congrArg₂ (Expr.binary op token · · _) ihLeft ihRight

theorem Call.annotate_untag (c : Call) : (c.map .untag).annotate scopes = c.annotate scopes := by
  simp only [map, annotate, Triple.map, Atom.annotate_untag]
  rfl

theorem Term.annotate_untag (value : Term) :
    (value.map .untag).annotate scopes = value.annotate scopes := by
  cases value with
  | expr e => exact congrArg Term.expr (e.annotate_untag scopes)
  | call c => exact congrArg Term.call (c.annotate_untag scopes)

/-- So it is for commands without blocks. -/
theorem SimpleCommand.annotate_untag (command : SimpleCommand) :
    (command.map .untag).annotate scopes = command.annotate scopes := by
  cases command with
  | skip keyword => rfl
  | halt keyword => rfl
  | print keyword value => exact congrArg (SimpleCommand.print _) (value.annotate_untag scopes)
  | giveBack keyword value =>
    exact congrArg (SimpleCommand.giveBack _) (value.annotate_untag scopes)
  | read target keyword => rfl
  | assign target value => exact congrArg (SimpleCommand.assign _) (value.annotate_untag scopes)
  | call c => exact congrArg SimpleCommand.call (c.annotate_untag scopes)

/-- So it is for commands, in all blocks inside them. -/
theorem Commands.annotate_untag (outer : Option Enclosing) (cs : Commands) :
    (cs.map .untag).annotate scopes outer = cs.annotate scopes outer := by
  induction cs with
  | nil => rfl
  | simple command tag rest ih =>
    rw [map, annotate, command.annotate_untag, command.typeProblems_untag, ih, annotate]
  | ifThen keyword condition brackets body tag rest ihBody ihRest =>
    simp only [map, annotate, condition.annotate_untag, conditionProblems_untag,
      typeProblems_untag, ihBody, ihRest]
    rfl
  | ifThenElse keyword condition thenBrackets thenBody elseBrackets elseBody tag rest ihThen ihElse
      ihRest =>
    simp only [map, annotate, condition.annotate_untag, conditionProblems_untag,
      typeProblems_untag, ihThen, ihElse, ihRest]
    rfl

/-- So it is for functions. -/
theorem FunctionDecl.annotate_untag (f : FunctionDecl) :
    (f.map .untag).annotate scopes = f.annotate scopes := by
  have body : (f.body.map .untag).annotate scopes (some f.enclosing) =
      f.body.annotate scopes (some f.enclosing) :=
    congrArg (Block.mk _) (f.body.commands.annotate_untag scopes _)
  rw [annotate, annotate, ← body]
  rfl

/-- Checking types does not look at tags. -/
theorem typecheck_untag (p : Program) : typecheck scopes p.untag = typecheck scopes p := by
  have program : p.untag.annotate scopes = p.annotate scopes := by
    have functions : (p.functions.map (FunctionDecl.map .untag)).map
        (FunctionDecl.annotate scopes) = p.functions.map (FunctionDecl.annotate scopes) := by
      rw [Forest.map_map]
      exact congrArg (p.functions.map ·) (funext (FunctionDecl.annotate_untag scopes))
    have globals : (p.globals.map (VarDecl.map .untag)).map VarDecl.annotate =
        p.globals.map VarDecl.annotate := by
      rw [List.map_map]
      rfl
    have block : (p.block.map .untag).annotate scopes none = p.block.annotate scopes none :=
      congrArg (Block.mk _) (p.block.commands.annotate_untag scopes none)
    rw [Program.annotate, Program.annotate, ← functions, ← globals, ← block]
    rfl
  have problems : p.untag.typeProblems scopes = p.typeProblems scopes := by
    have moved := p.typeProblems_map (Change.untag_moves scopes)
    rwa [movedProblem_id, List.map_id] at moved
  rw [typecheck, program, problems, typecheck]

end Types

/-! ## Names -/

def NameUse.untag : NameUse → NameUse :=
  NameUse.mapNames Change.untag.onVariable Change.untag.onFunction

theorem Commands.uses_untag (cs : Commands) :
    (cs.map .untag).uses = cs.uses.map NameUse.untag :=
  cs.uses_map .untag

end SplBasic
