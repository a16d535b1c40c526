import SplBasic.Proofs.StaticScope
import SplBasic.Proofs.Traversal

/-!
# Typing rules

The types of a program by rules, in terms of static scoping and independent of any checker:

* `Operator.Signature` : what operators take and yield,
* `TypeEnv` : what the declarations around a block say about types,
* `Atom.HasType`, `Expr.HasType`, `Call.HasType`, `Term.HasType` : the rules for what has a type,
* `SimpleCommand.WellTyped`, `Commands.WellTyped` : the rules for commands,
* `Program.WellTyped` : all blocks of a program, at any depth, obey the rules,
* `Program.Tagged` : all nodes of a program carry the types that the rules give,
* `Program.untag` : the program without tags, to say that nothing else was changed.

The rules read names by their source spelling. They do not look at texts and tags.
-/

namespace SplBasic

/-- `Signature op operand result`: the operator takes operands of one type and yields another. -/
inductive Operator.Signature : Operator → Ty → Ty → Prop
  | logical {op : Operator} :
      op ∈ [.unary .not, .binary .or, .binary .and] → Signature op .bool .bool
  | arithmetic {op : Operator} :
      op ∈ [.unary .sqrt, .binary .add, .binary .sub, .binary .mul, .binary .div] →
        Signature op .num .num
  | comparison {op : Operator} :
      op ∈ [.binary .eq, .binary .gt] → Signature op .num .bool

/-- The declared types that a block sees: of its variables, of the functions it may call, and of the
function that it belongs to, if there is one. -/
structure TypeEnv where
  variableType? : String → Option ValueType
  functionType? : String → Option ReturnType
  owner? : Option ReturnType

/-- The declared types that static scoping gives a region. -/
def Region.typeEnv (r : Region) : TypeEnv where
  variableType? name := (r.findVariable? name).map Prod.snd
  functionType? name := (r.findFunction? name).map Prod.snd
  owner? := r.frame.owner.map Prod.snd

/-! ## Rules -/

/-- Variables have their declared types, literals the types they are written in. -/
inductive Atom.HasType (Γ : TypeEnv) : Atom → Ty → Prop
  | variable {name : Name} {type : ValueType} :
      Γ.variableType? name.source = some type → HasType Γ (.name name) type.ty
  | literal {l : Literal} : HasType Γ (.literal l) l.type.ty

/-- Operations have the result type of their operator if their operands fit. -/
inductive Expr.HasType (Γ : TypeEnv) : Expr → Ty → Prop
  | atom {a : Atom} {ty : Ty} : a.HasType Γ ty → HasType Γ (.atom a) ty
  | unary {op : UnaryOp} {token : Token} {operand : Expr} {tag takes yields : Ty} :
      (Operator.unary op).Signature takes yields → HasType Γ operand takes →
        HasType Γ (.unary op token operand tag) yields
  | binary {op : BinaryOp} {token : Token} {left right : Expr} {tag takes yields : Ty} :
      (Operator.binary op).Signature takes yields → HasType Γ left takes →
        HasType Γ right takes → HasType Γ (.binary op token left right tag) yields

/-- A call has the declared return type of its callee if all arguments are numbers. -/
inductive Call.HasType (Γ : TypeEnv) : Call → Ty → Prop
  | intro {c : Call} {type : ReturnType} :
      Γ.functionType? c.callee.source = some type →
        c.args.first.HasType Γ .num → c.args.second.HasType Γ .num →
        c.args.third.HasType Γ .num → HasType Γ c type.ty

/-- Terms are expressions or calls. -/
inductive Term.HasType (Γ : TypeEnv) : Term → Ty → Prop
  | expr {e : Expr} {ty : Ty} : e.HasType Γ ty → HasType Γ (.expr e) ty
  | call {c : Call} {ty : Ty} : c.HasType Γ ty → HasType Γ (.call c) ty

/-- The rules for commands without blocks. Only functions give something back. -/
inductive SimpleCommand.WellTyped (Γ : TypeEnv) : SimpleCommand → Prop
  | skip {keyword : Token} : WellTyped Γ (.skip keyword)
  | halt {keyword : Token} : WellTyped Γ (.halt keyword)
  | print {keyword : Token} {value : Atom} {ty : Ty} :
      value.HasType Γ ty → WellTyped Γ (.print keyword value)
  | giveBack {keyword : Token} {value : Atom} {type : ReturnType} :
      Γ.owner? = some type → value.HasType Γ type.ty → WellTyped Γ (.giveBack keyword value)
  | read {target : Name} {keyword : Token} :
      Γ.variableType? target.source = some .num → WellTyped Γ (.read target keyword)
  | assign {target : Name} {value : Term} {type : ValueType} :
      Γ.variableType? target.source = some type → value.HasType Γ type.ty →
        WellTyped Γ (.assign target value)
  | call {c : Call} {ty : Ty} : c.HasType Γ ty → WellTyped Γ (.call c)

/-- The rules for the commands of a block. -/
inductive Commands.WellTyped (Γ : TypeEnv) : Commands → Prop
  | nil : WellTyped Γ .nil
  | simple {command : SimpleCommand} {tag : Ty} {rest : Commands} :
      command.WellTyped Γ → WellTyped Γ rest → WellTyped Γ (.simple command tag rest)
  | ifThen {keyword : Token} {condition : Expr} {brackets : Brackets} {body rest : Commands}
      {tag : Ty} :
      condition.HasType Γ .bool → WellTyped Γ body → WellTyped Γ rest →
        WellTyped Γ (.ifThen keyword condition brackets body tag rest)
  | ifThenElse {keyword : Token} {condition : Expr} {thenBrackets elseBrackets : Brackets}
      {thenBody elseBody rest : Commands} {tag : Ty} :
      condition.HasType Γ .bool → WellTyped Γ thenBody → WellTyped Γ elseBody →
        WellTyped Γ rest →
        WellTyped Γ (.ifThenElse keyword condition thenBrackets thenBody elseBrackets elseBody tag
          rest)

/-- All blocks of the program obey the rules, each in the scope it stands in. -/
def Program.WellTyped (p : Program) : Prop :=
  ∀ r ∈ p.regions, r.block.commands.WellTyped r.typeEnv

/-! ## Rules read backwards -/

section Inversion

variable {Γ : TypeEnv} {ty : Ty}

/-- A variable has the type that it is declared with. -/
@[simp] theorem Atom.hasType_name_iff {name : Name} :
    (Atom.name name).HasType Γ ty ↔
      (Γ.variableType? name.source).map ValueType.ty = some ty := by
  constructor
  · rintro ⟨declared⟩
    rw [declared, Option.map_some]
  · intro declared
    rcases Option.map_eq_some_iff.1 declared with ⟨type, found, rfl⟩
    exact .variable found

/-- A literal has its own type. -/
@[simp] theorem Atom.hasType_literal_iff {l : Literal} :
    (Atom.literal l).HasType Γ ty ↔ l.type.ty = ty := by
  constructor
  · rintro ⟨⟩
    rfl
  · rintro rfl
    exact .literal

@[simp] theorem Expr.hasType_atom_iff {a : Atom} :
    (Expr.atom a).HasType Γ ty ↔ a.HasType Γ ty := by
  constructor
  · rintro ⟨h⟩
    exact h
  · exact .atom

/-- An operation with one operand has a type if its operand fits the signature. -/
@[simp] theorem Expr.hasType_unary_iff {op : UnaryOp} {token : Token} {operand : Expr} {tag : Ty} :
    (Expr.unary op token operand tag).HasType Γ ty ↔
      ∃ takes, (Operator.unary op).Signature takes ty ∧ operand.HasType Γ takes := by
  constructor
  · intro h
    cases h with
    | unary signature typed => exact ⟨_, signature, typed⟩
  · rintro ⟨takes, signature, typed⟩
    exact .unary signature typed

/-- An operation with two operands has a type if both fit the signature. -/
@[simp] theorem Expr.hasType_binary_iff {op : BinaryOp} {token : Token} {left right : Expr}
    {tag : Ty} :
    (Expr.binary op token left right tag).HasType Γ ty ↔
      ∃ takes, (Operator.binary op).Signature takes ty ∧ left.HasType Γ takes ∧
        right.HasType Γ takes := by
  constructor
  · intro h
    cases h with
    | binary signature typedLeft typedRight => exact ⟨_, signature, typedLeft, typedRight⟩
  · rintro ⟨takes, signature, typedLeft, typedRight⟩
    exact .binary signature typedLeft typedRight

/-- A call has the type that its function returns, and takes numbers. -/
theorem Call.hasType_iff {c : Call} :
    c.HasType Γ ty ↔ (Γ.functionType? c.callee.source).map ReturnType.ty = some ty ∧
      c.args.first.HasType Γ .num ∧ c.args.second.HasType Γ .num ∧ c.args.third.HasType Γ .num := by
  constructor
  · rintro ⟨declared, first, second, third⟩
    exact ⟨by rw [declared, Option.map_some], first, second, third⟩
  · rintro ⟨declared, first, second, third⟩
    rcases Option.map_eq_some_iff.1 declared with ⟨type, found, rfl⟩
    exact .intro found first second third

@[simp] theorem Term.hasType_expr_iff {e : Expr} :
    (Term.expr e).HasType Γ ty ↔ e.HasType Γ ty := by
  constructor
  · rintro ⟨h⟩
    exact h
  · exact .expr

@[simp] theorem Term.hasType_call_iff {c : Call} :
    (Term.call c).HasType Γ ty ↔ c.HasType Γ ty := by
  constructor
  · intro h
    cases h with
    | call typed => exact typed
  · exact .call

/-- What a command without blocks has to fulfil, by cases. -/
theorem SimpleCommand.wellTyped_iff {command : SimpleCommand} :
    command.WellTyped Γ ↔
      match command with
      | .skip _ => True
      | .halt _ => True
      | .print _ value => ∃ ty, value.HasType Γ ty
      | .giveBack _ value => ∃ type, Γ.owner? = some type ∧ value.HasType Γ type.ty
      | .read target _ => Γ.variableType? target.source = some .num
      | .assign target value =>
        ∃ type, Γ.variableType? target.source = some type ∧ value.HasType Γ type.ty
      | .call c => ∃ ty, c.HasType Γ ty := by
  constructor
  · intro h
    cases h with
    | skip => trivial
    | halt => trivial
    | print typed => exact ⟨_, typed⟩
    | giveBack owner typed => exact ⟨_, owner, typed⟩
    | read declared => exact declared
    | assign declared typed => exact ⟨_, declared, typed⟩
    | call typed => exact ⟨_, typed⟩
  · intro h
    cases command with
    | skip keyword => exact .skip
    | halt keyword => exact .halt
    | print keyword value =>
      rcases h with ⟨ty, typed⟩
      exact .print typed
    | giveBack keyword value =>
      rcases h with ⟨type, owner, typed⟩
      exact .giveBack owner typed
    | read target keyword => exact .read h
    | assign target value =>
      rcases h with ⟨type, declared, typed⟩
      exact .assign declared typed
    | call c =>
      rcases h with ⟨ty, typed⟩
      exact .call typed

/-- The rules for commands, read from the conclusion. -/
theorem Commands.wellTyped_iff {cs : Commands} :
    cs.WellTyped Γ ↔
      match cs with
      | .nil => True
      | .simple command _ rest => command.WellTyped Γ ∧ rest.WellTyped Γ
      | .ifThen _ condition _ body _ rest =>
        condition.HasType Γ .bool ∧ body.WellTyped Γ ∧ rest.WellTyped Γ
      | .ifThenElse _ condition _ thenBody _ elseBody _ rest =>
        condition.HasType Γ .bool ∧ thenBody.WellTyped Γ ∧ elseBody.WellTyped Γ ∧
          rest.WellTyped Γ := by
  constructor
  · intro h
    cases h with
    | nil => trivial
    | simple command rest => exact ⟨command, rest⟩
    | ifThen condition body rest => exact ⟨condition, body, rest⟩
    | ifThenElse condition thenBody elseBody rest => exact ⟨condition, thenBody, elseBody, rest⟩
  · intro h
    cases cs with
    | nil => exact .nil
    | simple command tag rest => exact .simple h.1 h.2
    | ifThen keyword condition brackets body tag rest => exact .ifThen h.1 h.2.1 h.2.2
    | ifThenElse keyword condition thenBrackets thenBody elseBrackets elseBody tag rest =>
      exact .ifThenElse h.1 h.2.1 h.2.2.1 h.2.2.2

end Inversion

/-! ## Types of renamed programs -/

section Renamed

variable {Γ : TypeEnv} {ty : Ty} {f g : Name → Name}

theorem Atom.hasType_mapNames (keepsF : ∀ name, (f name).token = name.token) (a : Atom) :
    (a.mapNames f).HasType Γ ty ↔ a.HasType Γ ty := by
  cases a with
  | name n => simp [Atom.mapNames, Name.source, keepsF]
  | literal l => rfl

/-- Types depend on source names only, which binding keeps. -/
theorem Expr.hasType_mapNames (keepsF : ∀ name, (f name).token = name.token) (e : Expr) :
    (e.mapNames f).HasType Γ ty ↔ e.HasType Γ ty := by
  induction e generalizing ty with
  | atom a => simp [Expr.mapNames, a.hasType_mapNames keepsF]
  | unary op token operand tag ih => simp [Expr.mapNames, ih]
  | binary op token left right tag ihLeft ihRight => simp [Expr.mapNames, ihLeft, ihRight]

theorem Call.hasType_mapNames (keepsF : ∀ name, (f name).token = name.token)
    (keepsG : ∀ name, (g name).token = name.token) (c : Call) :
    (c.mapNames f g).HasType Γ ty ↔ c.HasType Γ ty := by
  simp [Call.hasType_iff, Call.mapNames, Triple.map, Atom.hasType_mapNames keepsF, Name.source,
    keepsG]

theorem Term.hasType_mapNames (keepsF : ∀ name, (f name).token = name.token)
    (keepsG : ∀ name, (g name).token = name.token) (term : Term) :
    (term.mapNames f g).HasType Γ ty ↔ term.HasType Γ ty := by
  cases term with
  | expr e => simp [Term.mapNames, e.hasType_mapNames keepsF]
  | call c => simp [Term.mapNames, c.hasType_mapNames keepsF keepsG]

/-- Renaming commands keeps them well typed or ill typed. -/
theorem Commands.wellTyped_mapNames (keepsF : ∀ name, (f name).token = name.token)
    (keepsG : ∀ name, (g name).token = name.token) (cs : Commands) :
    (cs.mapNames f g).WellTyped Γ ↔ cs.WellTyped Γ := by
  have simple (command : SimpleCommand) :
      (command.mapNames f g).WellTyped Γ ↔ command.WellTyped Γ := by
    rw [SimpleCommand.wellTyped_iff, SimpleCommand.wellTyped_iff]
    -- the rules read names by their tokens, which the mapping keeps
    cases command with
    | skip keyword => rfl
    | halt keyword => rfl
    | print keyword value => simp [SimpleCommand.mapNames, value.hasType_mapNames keepsF]
    | giveBack keyword value => simp [SimpleCommand.mapNames, value.hasType_mapNames keepsF]
    | read target keyword => simp [SimpleCommand.mapNames, Name.source, keepsF]
    | assign target value =>
      simp [SimpleCommand.mapNames, value.hasType_mapNames keepsF keepsG, Name.source, keepsF]
    | call c => simp [SimpleCommand.mapNames, c.hasType_mapNames keepsF keepsG]
  induction cs with
  | nil => rfl
  | simple command tag rest ih =>
    rw [Commands.mapNames, Commands.wellTyped_iff, Commands.wellTyped_iff]
    simp only [simple, ih]
  | ifThen keyword condition brackets body tag rest ihBody ihRest =>
    rw [Commands.mapNames, Commands.wellTyped_iff, Commands.wellTyped_iff]
    simp only [condition.hasType_mapNames keepsF, ihBody, ihRest]
  | ifThenElse keyword condition thenBrackets thenBody elseBrackets elseBody tag rest ihThen ihElse
      ihRest =>
    rw [Commands.mapNames, Commands.wellTyped_iff, Commands.wellTyped_iff]
    simp only [condition.hasType_mapNames keepsF, ihThen, ihElse, ihRest]

end Renamed

/-! ## Tags -/

/-- The tag is a proper type, it is given, and no other type is. -/
def Carries (tag : Ty) (given : Ty → Prop) : Prop :=
  given tag ∧ tag ≠ .unknown ∧ ∀ ty, given ty → ty = tag

/-- The atom carries its type. -/
def Atom.Tagged (Γ : TypeEnv) (a : Atom) : Prop :=
  Carries a.tag (a.HasType Γ)

/-- The expression and everything in it carry their types. -/
def Expr.Tagged (Γ : TypeEnv) : Expr → Prop
  | .atom a => Carries (Expr.atom a).tag (HasType Γ (.atom a)) ∧ a.Tagged Γ
  | .unary op token operand tag =>
    Carries tag (HasType Γ (.unary op token operand tag)) ∧ operand.Tagged Γ
  | .binary op token left right tag =>
    Carries tag (HasType Γ (.binary op token left right tag)) ∧ left.Tagged Γ ∧ right.Tagged Γ

def Call.Tagged (Γ : TypeEnv) (c : Call) : Prop :=
  Carries c.tag (c.HasType Γ) ∧
    Carries c.callee.tag (fun ty => (Γ.functionType? c.callee.source).map ReturnType.ty = some ty) ∧
    ∀ a ∈ c.args.toList, a.Tagged Γ

def Term.Tagged (Γ : TypeEnv) : Term → Prop
  | .expr e => Carries (Term.expr e).tag (HasType Γ (.expr e)) ∧ e.Tagged Γ
  | .call c => Carries (Term.call c).tag (HasType Γ (.call c)) ∧ c.Tagged Γ

def SimpleCommand.Tagged (Γ : TypeEnv) : SimpleCommand → Prop
  | .skip _ => True
  | .halt _ => True
  | .print _ value => value.Tagged Γ
  | .giveBack _ value => value.Tagged Γ
  | .read target _ => (Atom.name target).Tagged Γ
  | .assign target value => (Atom.name target).Tagged Γ ∧ value.Tagged Γ
  | .call c => c.Tagged Γ

/-- Everything in the commands carries its type, and the commands themselves are tagged `void`. -/
def Commands.Tagged (Γ : TypeEnv) : Commands → Prop
  | .nil => True
  | .simple command tag rest => tag = .void ∧ command.Tagged Γ ∧ rest.Tagged Γ
  | .ifThen _ condition _ body tag rest =>
    tag = .void ∧ condition.Tagged Γ ∧ body.Tagged Γ ∧ rest.Tagged Γ
  | .ifThenElse _ condition _ thenBody _ elseBody tag rest =>
    tag = .void ∧ condition.Tagged Γ ∧ thenBody.Tagged Γ ∧ elseBody.Tagged Γ ∧ rest.Tagged Γ

/-- The declared names of the function carry their declared types. -/
structure FunctionDecl.HeadTagged (f : FunctionDecl) : Prop where
  name : f.name.tag = f.returnType.ty
  entries : ∀ entry ∈ f.entries, entry.1.tag = entry.2.ty

/-- All nodes of the program carry their types: declared names those they are declared with, all
others those that the rules give. -/
structure Program.Tagged (p : Program) : Prop where
  globals : ∀ decl ∈ p.globals, decl.name.tag = decl.type.ty
  functions : ∀ f ∈ p.functions.toList, f.HeadTagged
  blocks : ∀ r ∈ p.regions, r.block.commands.Tagged r.typeEnv

/-! ## Programs without tags -/

/-- The change that takes all tags away. -/
def Change.untag : Change where
  word := id
  onVariable n := { n with tag := .unknown }
  onFunction n := { n with tag := .unknown }
  onLiteral l := { l with tag := .unknown }
  tag _ := .unknown

def Program.untag (p : Program) : Program :=
  p.map .untag

end SplBasic
