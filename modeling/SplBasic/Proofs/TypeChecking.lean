import SplBasic.Proofs.Renaming
import SplBasic.Proofs.TypingRules
import SplBasic.Typing.Check

/-!
# The type checker decides the typing rules

`typecheck_ok_iff_wellTyped` : a program that is read from a text and resolved without diagnostics
passes the type checker if and only if it obeys the typing rules, and then the checker tags all its
nodes with the types that the rules give.

The checker finds types by the unique names that renaming wrote, the rules by static scoping.
`TypeEnv.Agrees` says of a used name that both give it the same type. Where all names agree, no type
is `unknown`, so the checker never stays silent about an operand; every judgement of the rules is
then a judgement of the checker, construct by construct.
-/

namespace SplBasic

/-- Static scoping and the scope tree know the name with the same type. -/
def TypeEnv.Agrees (Γ : TypeEnv) (scopes : ScopeTree) : NameUse → Prop
  | .variable name => ∃ type, Γ.variableType? name.source = some type ∧
      name.declaredType? scopes .variable = some type.ty
  | .callee name => ∃ type, Γ.functionType? name.source = some type ∧
      name.declaredType? scopes .function = some type.ty

/-! ## Operators and types -/

/-- The tables of the checker are those of the rules. -/
theorem Operator.signature_iff {op : Operator} {takes yields : Ty} :
    op.Signature takes yields ↔ takes = op.operandType ∧ yields = op.resultType := by
  constructor
  · intro signature
    -- each rule lists its operators, so the tables are compared on these lists
    cases signature with
    | logical listed =>
      have same : ∀ op ∈ [Operator.unary .not, .binary .or, .binary .and],
          .bool = op.operandType ∧ .bool = op.resultType := by decide
      exact same op listed
    | arithmetic listed =>
      have same : ∀ op ∈ [Operator.unary .sqrt, .binary .add, .binary .sub, .binary .mul,
          .binary .div], .num = op.operandType ∧ .num = op.resultType := by decide
      exact same op listed
    | comparison listed =>
      have same : ∀ op ∈ [Operator.binary .eq, .binary .gt],
          .num = op.operandType ∧ .bool = op.resultType := by decide
      exact same op listed
  · rintro ⟨rfl, rfl⟩
    cases op with
    | unary op =>
      cases op with
      | not => exact .logical (by decide)
      | sqrt => exact .arithmetic (by decide)
    | binary op =>
      cases op with
      | or => exact .logical (by decide)
      | and => exact .logical (by decide)
      | eq => exact .comparison (by decide)
      | gt => exact .comparison (by decide)
      | add => exact .arithmetic (by decide)
      | sub => exact .arithmetic (by decide)
      | mul => exact .arithmetic (by decide)
      | div => exact .arithmetic (by decide)

/-- No operator yields the type of what is not known. -/
theorem Operator.resultType_ne_unknown (op : Operator) : op.resultType ≠ .unknown := by
  cases op with
  | unary op =>
    cases op with
    | not => decide
    | sqrt => decide
  | binary op =>
    cases op with
    | or => decide
    | and => decide
    | eq => decide
    | gt => decide
    | add => decide
    | sub => decide
    | mul => decide
    | div => decide

theorem ValueType.ty_ne_unknown (type : ValueType) : type.ty ≠ .unknown := by
  cases type with
  | num => decide
  | text => decide

/-- Different value types have different tags. -/
theorem ValueType.ty_injective {type type' : ValueType} (same : type.ty = type'.ty) :
    type = type' := by
  cases type with
  | num =>
    cases type' with
    | num => rfl
    | text => cases same
  | text =>
    cases type' with
    | num => cases same
    | text => rfl

theorem ReturnType.ty_ne_unknown (type : ReturnType) : type.ty ≠ .unknown := by
  cases type with
  | value type => exact type.ty_ne_unknown
  | void => decide

/-- A known type passes if and only if it is the expected one. -/
theorem mismatch_eq_nil_iff {expected found : Ty} {cause : TypeError} {pos : Position}
    (known : found ≠ .unknown) : mismatch expected found cause pos = [] ↔ found = expected := by
  simp [mismatch, known]

section Judgements

variable {Γ : TypeEnv} {scopes : ScopeTree} {ty : Ty}

/-! ## Names and atoms -/

theorem Name.typeIn_eq {name : Name} {kind : SymbolKind}
    (declared : name.declaredType? scopes kind = some ty) : name.typeIn scopes kind = ty := by
  rw [Name.typeIn, declared, Option.getD_some]

theorem Name.typeProblems_eq_nil {name : Name} {kind : SymbolKind}
    (declared : name.declaredType? scopes kind = some ty) :
    name.typeProblems scopes kind = [] := by
  rw [Name.typeProblems, declared]

/-- With all names agreed upon, an atom has no problem. -/
theorem Atom.typeProblems_eq_nil {a : Atom} (agree : ∀ use ∈ a.uses, Γ.Agrees scopes use) :
    a.typeProblems scopes = [] := by
  cases a with
  | name n =>
    rcases agree (.variable n) (List.mem_singleton_self _) with ⟨type, _, declared⟩
    exact Name.typeProblems_eq_nil declared
  | literal l => rfl

/-- With all names agreed upon, the checker knows the type of an atom. -/
theorem Atom.typeIn_ne_unknown {a : Atom} (agree : ∀ use ∈ a.uses, Γ.Agrees scopes use) :
    a.typeIn scopes ≠ .unknown := by
  cases a with
  | name n =>
    rcases agree (.variable n) (List.mem_singleton_self _) with ⟨type, _, declared⟩
    rw [Atom.typeIn, Name.typeIn_eq declared]
    exact type.ty_ne_unknown
  | literal l => exact l.type.ty_ne_unknown

/-- The checker gives an atom the type that the rules give it. -/
theorem Atom.hasType_iff {a : Atom} (agree : ∀ use ∈ a.uses, Γ.Agrees scopes use) :
    a.HasType Γ ty ↔ a.typeIn scopes = ty := by
  cases a with
  | name n =>
    rcases agree (.variable n) (List.mem_singleton_self _) with ⟨type, bound, declared⟩
    rw [Atom.hasType_name_iff, bound, Atom.typeIn, Name.typeIn_eq declared]
    simp
  | literal l => exact Atom.hasType_literal_iff

/-! ## Expressions -/

/-- With all names agreed upon, the checker knows the type of an expression. -/
theorem Expr.typeIn_ne_unknown {e : Expr} (agree : ∀ use ∈ e.uses, Γ.Agrees scopes use) :
    e.typeIn scopes ≠ .unknown := by
  cases e with
  | atom a => exact Atom.typeIn_ne_unknown agree
  | unary op token operand tag => exact Operator.resultType_ne_unknown _
  | binary op token left right tag => exact Operator.resultType_ne_unknown _

/-- An operand without problems fits if it has the type that its operator takes. -/
theorem Expr.operandProblems_eq_nil_iff {e : Expr} {op : Operator}
    (agree : ∀ use ∈ e.uses, Γ.Agrees scopes use) :
    e.operandProblems scopes op = [] ↔ e.typeIn scopes = op.operandType :=
  mismatch_eq_nil_iff (Expr.typeIn_ne_unknown agree)

/-- The checker accepts an expression with exactly the types that the rules give it. -/
theorem Expr.hasType_iff {e : Expr} (agree : ∀ use ∈ e.uses, Γ.Agrees scopes use) :
    e.HasType Γ ty ↔ e.typeProblems scopes = [] ∧ e.typeIn scopes = ty := by
  induction e generalizing ty with
  | atom a =>
    rw [Expr.hasType_atom_iff, Atom.hasType_iff agree, Expr.typeProblems,
      Atom.typeProblems_eq_nil agree]
    simp [Expr.typeIn]
  | unary op token operand tag ih =>
    -- the rule asks for some operand type, which the signature fixes to that of the table
    have agreeOperand : ∀ use ∈ operand.uses, Γ.Agrees scopes use := agree
    rw [Expr.hasType_unary_iff, Expr.typeProblems, List.append_eq_nil_iff,
      Expr.operandProblems_eq_nil_iff agreeOperand]
    simp only [Operator.signature_iff, ih agreeOperand, Expr.typeIn]
    constructor
    · rintro ⟨takes, ⟨rfl, rfl⟩, problems, type⟩
      exact ⟨⟨problems, type⟩, rfl⟩
    · rintro ⟨⟨problems, type⟩, rfl⟩
      exact ⟨_, ⟨rfl, rfl⟩, problems, type⟩
  | binary op token left right tag ihLeft ihRight =>
    have agreeLeft : ∀ use ∈ left.uses, Γ.Agrees scopes use := fun use listed =>
      agree use (List.mem_append_left _ listed)
    have agreeRight : ∀ use ∈ right.uses, Γ.Agrees scopes use := fun use listed =>
      agree use (List.mem_append_right _ listed)
    rw [Expr.hasType_binary_iff, Expr.typeProblems]
    simp only [List.append_eq_nil_iff, Expr.operandProblems_eq_nil_iff agreeLeft,
      Expr.operandProblems_eq_nil_iff agreeRight, Operator.signature_iff, ihLeft agreeLeft,
      ihRight agreeRight, Expr.typeIn]
    constructor
    · rintro ⟨takes, ⟨rfl, rfl⟩, ⟨problemsLeft, typeLeft⟩, problemsRight, typeRight⟩
      exact ⟨⟨⟨⟨problemsLeft, typeLeft⟩, problemsRight⟩, typeRight⟩, rfl⟩
    · rintro ⟨⟨⟨⟨problemsLeft, typeLeft⟩, problemsRight⟩, typeRight⟩, rfl⟩
      exact ⟨_, ⟨rfl, rfl⟩, ⟨problemsLeft, typeLeft⟩, problemsRight, typeRight⟩

/-! ## Calls and terms -/

theorem Call.callee_agrees {c : Call} (agree : ∀ use ∈ c.uses, Γ.Agrees scopes use) :
    Γ.Agrees scopes (.callee c.callee) :=
  agree _ List.mem_cons_self

theorem Call.arg_agrees {c : Call} (agree : ∀ use ∈ c.uses, Γ.Agrees scopes use) {a : Atom}
    (isArg : a ∈ c.args.toList) : ∀ use ∈ a.uses, Γ.Agrees scopes use := fun use listed =>
  agree use (List.mem_cons_of_mem _ (List.mem_flatMap.2 ⟨a, isArg, listed⟩))

theorem Call.typeIn_ne_unknown {c : Call} (agree : ∀ use ∈ c.uses, Γ.Agrees scopes use) :
    c.typeIn scopes ≠ .unknown := by
  rcases Call.callee_agrees agree with ⟨type, _, declared⟩
  rw [Call.typeIn, Name.typeIn_eq declared]
  exact type.ty_ne_unknown

/-- An argument is accepted if it is a number. -/
theorem Call.argumentProblems_eq_nil_iff {c : Call} (agree : ∀ use ∈ c.uses, Γ.Agrees scopes use)
    {position : Nat} {a : Atom} (isArg : a ∈ c.args.toList) :
    c.argumentProblems scopes position a = [] ↔ a.HasType Γ .num := by
  have agreeArg := Call.arg_agrees agree isArg
  calc c.argumentProblems scopes position a = []
      ↔ a.typeIn scopes = .num := by
        rw [Call.argumentProblems, Atom.typeProblems_eq_nil agreeArg, List.nil_append,
          mismatch_eq_nil_iff (Atom.typeIn_ne_unknown agreeArg)]
    _ ↔ a.HasType Γ .num := (Atom.hasType_iff agreeArg).symm

/-- The checker accepts a call with exactly the types that the rules give it. -/
theorem Call.hasType_iff_typeProblems {c : Call} (agree : ∀ use ∈ c.uses, Γ.Agrees scopes use) :
    c.HasType Γ ty ↔ c.typeProblems scopes = [] ∧ c.typeIn scopes = ty := by
  rcases Call.callee_agrees agree with ⟨type, bound, declared⟩
  rw [Call.hasType_iff, bound, Call.typeProblems, Name.typeProblems_eq_nil declared, Call.typeIn,
    Name.typeIn_eq declared]
  have first : c.args.first ∈ c.args.toList := by simp [Triple.toList]
  have second : c.args.second ∈ c.args.toList := by simp [Triple.toList]
  have third : c.args.third ∈ c.args.toList := by simp [Triple.toList]
  simp only [List.nil_append, List.append_eq_nil_iff, Option.map_some, Option.some.injEq,
    Call.argumentProblems_eq_nil_iff agree first, Call.argumentProblems_eq_nil_iff agree second,
    Call.argumentProblems_eq_nil_iff agree third]
  constructor
  · rintro ⟨type, first, second, third⟩
    exact ⟨⟨⟨first, second⟩, third⟩, type⟩
  · rintro ⟨⟨⟨first, second⟩, third⟩, type⟩
    exact ⟨type, first, second, third⟩

theorem Term.typeIn_ne_unknown {term : Term} (agree : ∀ use ∈ term.uses, Γ.Agrees scopes use) :
    term.typeIn scopes ≠ .unknown := by
  cases term with
  | expr e => exact Expr.typeIn_ne_unknown agree
  | call c => exact Call.typeIn_ne_unknown agree

/-- The checker accepts a term with exactly the types that the rules give it. -/
theorem Term.hasType_iff {term : Term} (agree : ∀ use ∈ term.uses, Γ.Agrees scopes use) :
    term.HasType Γ ty ↔ term.typeProblems scopes = [] ∧ term.typeIn scopes = ty := by
  cases term with
  | expr e => exact Term.hasType_expr_iff.trans (Expr.hasType_iff agree)
  | call c => exact Term.hasType_call_iff.trans (Call.hasType_iff_typeProblems agree)

/-! ## Commands -/

/-- The checker knows the function that the commands stand in by its return type. -/
def TypeEnv.OwnedBy (Γ : TypeEnv) (outer : Option Enclosing) : Prop :=
  outer.map Enclosing.returnType = Γ.owner?.map ReturnType.ty

/-- The checker objects to a command exactly if it breaks the rules. -/
theorem SimpleCommand.typeProblems_eq_nil_iff {command : SimpleCommand} {outer : Option Enclosing}
    (owned : Γ.OwnedBy outer) (agree : ∀ use ∈ command.uses, Γ.Agrees scopes use) :
    command.typeProblems scopes outer = [] ↔ command.WellTyped Γ := by
  rw [SimpleCommand.wellTyped_iff]
  cases command with
  | skip keyword => exact iff_true_intro rfl
  | halt keyword => exact iff_true_intro rfl
  | print keyword value =>
    have agreeValue : ∀ use ∈ value.uses, Γ.Agrees scopes use := agree
    refine iff_of_true (Atom.typeProblems_eq_nil agreeValue) ?_
    exact ⟨_, (Atom.hasType_iff agreeValue).2 rfl⟩
  | giveBack keyword value =>
    have agreeValue : ∀ use ∈ value.uses, Γ.Agrees scopes use := agree
    cases outer with
    | none =>
      -- in the main block the checker always objects, and no rule applies
      have noOwner : Γ.owner? = none := Option.map_eq_none_iff.1 (Eq.symm owned)
      simp [SimpleCommand.typeProblems, noOwner]
    | some enclosing =>
      rcases Option.map_eq_some_iff.1 (Eq.symm owned) with ⟨type, isOwner, returns⟩
      calc (SimpleCommand.giveBack keyword value).typeProblems scopes (some enclosing) = []
          ↔ value.typeIn scopes = type.ty := by
            rw [SimpleCommand.typeProblems, Atom.typeProblems_eq_nil agreeValue, List.nil_append,
              mismatch_eq_nil_iff (Atom.typeIn_ne_unknown agreeValue), ← returns]
        _ ↔ value.HasType Γ type.ty := (Atom.hasType_iff agreeValue).symm
        _ ↔ _ := by simp [isOwner]
  | read target keyword =>
    rcases agree (.variable target) (List.mem_singleton_self _) with ⟨type, bound, declared⟩
    -- the rule speaks of the declared type, the checker of the type it stands for
    calc (SimpleCommand.read target keyword).typeProblems scopes outer = []
        ↔ type.ty = ValueType.num.ty := by
          rw [SimpleCommand.typeProblems, Name.typeProblems_eq_nil declared, List.nil_append,
            Name.typeIn_eq declared, mismatch_eq_nil_iff type.ty_ne_unknown]
          rfl
      _ ↔ type = .num := ⟨ValueType.ty_injective, congrArg ValueType.ty⟩
      _ ↔ Γ.variableType? target.source = some .num := by rw [bound, Option.some.injEq]
  | assign target value =>
    have agreeValue : ∀ use ∈ value.uses, Γ.Agrees scopes use := fun use listed =>
      agree use (List.mem_cons_of_mem _ listed)
    rcases agree (.variable target) List.mem_cons_self with ⟨type, bound, declared⟩
    rw [SimpleCommand.typeProblems, Name.typeProblems_eq_nil declared, List.nil_append,
      Name.typeIn_eq declared, if_neg type.ty_ne_unknown, List.append_eq_nil_iff,
      mismatch_eq_nil_iff (Term.typeIn_ne_unknown agreeValue), ← Term.hasType_iff agreeValue]
    dsimp only
    rw [bound]
    simp
  | call c =>
    rw [SimpleCommand.typeProblems]
    dsimp only
    simp only [Call.hasType_iff_typeProblems agree, exists_and_left, exists_eq', and_true]

/-- A condition is accepted if it is a boolean. -/
theorem conditionProblems_eq_nil_iff {condition : Expr}
    (agree : ∀ use ∈ condition.uses, Γ.Agrees scopes use) :
    conditionProblems scopes condition = [] ↔ condition.HasType Γ .bool := by
  rw [conditionProblems, List.append_eq_nil_iff, Expr.hasType_iff agree]
  simp

/-- Commands have no type problems if and only if they obey the rules. -/
theorem Commands.typeProblems_eq_nil_iff {cs : Commands} {outer : Option Enclosing}
    (owned : Γ.OwnedBy outer) (agree : ∀ use ∈ cs.uses, Γ.Agrees scopes use) :
    cs.typeProblems scopes outer = [] ↔ cs.WellTyped Γ := by
  -- problems are collected command by command, so none are left exactly if each part has none
  induction cs with
  | nil => exact iff_of_true rfl .nil
  | simple command tag rest ih =>
    simp only [Commands.uses, List.mem_append] at agree
    rw [Commands.typeProblems, List.append_eq_nil_iff, Commands.wellTyped_iff,
      SimpleCommand.typeProblems_eq_nil_iff owned fun use listed => agree use (.inl listed),
      ih fun use listed => agree use (.inr listed)]
  | ifThen keyword condition brackets body tag rest ihBody ihRest =>
    simp only [Commands.uses, List.mem_append] at agree
    rw [Commands.typeProblems, List.append_eq_nil_iff, List.append_eq_nil_iff,
      Commands.wellTyped_iff,
      conditionProblems_eq_nil_iff fun use listed => agree use (.inl (.inl listed)),
      ihBody fun use listed => agree use (.inl (.inr listed)),
      ihRest fun use listed => agree use (.inr listed), and_assoc]
  | ifThenElse keyword condition thenBrackets thenBody elseBrackets elseBody tag rest ihThen ihElse
      ihRest =>
    simp only [Commands.uses, List.mem_append] at agree
    rw [Commands.typeProblems, List.append_eq_nil_iff, List.append_eq_nil_iff,
      List.append_eq_nil_iff, Commands.wellTyped_iff,
      conditionProblems_eq_nil_iff fun use listed => agree use (.inl (.inl (.inl listed))),
      ihThen fun use listed => agree use (.inl (.inl (.inr listed))),
      ihElse fun use listed => agree use (.inl (.inr listed)),
      ihRest fun use listed => agree use (.inr listed), and_assoc, and_assoc]

/-! ## Tags -/

/-- A tag that determines the given type is carried. -/
theorem Carries.of_iff {tag : Ty} {given : Ty → Prop} (known : tag ≠ .unknown)
    (determined : ∀ ty, given ty ↔ tag = ty) : Carries tag given :=
  ⟨(determined tag).2 rfl, known, fun ty isGiven => ((determined ty).1 isGiven).symm⟩

theorem Carries.congr {tag : Ty} {given given' : Ty → Prop} (carries : Carries tag given)
    (same : ∀ ty, given' ty ↔ given ty) : Carries tag given' :=
  ⟨(same tag).2 carries.1, carries.2.1, fun ty isGiven => carries.2.2 ty ((same ty).1 isGiven)⟩

/-- Tags do not enter the rules. -/
theorem Atom.hasType_annotate (a : Atom) : (a.annotate scopes).HasType Γ ty ↔ a.HasType Γ ty := by
  cases a with
  | name n => simp [Atom.annotate, Name.annotate, Name.source]
  | literal l => simp [Atom.annotate]

theorem Expr.hasType_annotate (e : Expr) : (e.annotate scopes).HasType Γ ty ↔ e.HasType Γ ty := by
  induction e generalizing ty with
  | atom a => simp [Expr.annotate, a.hasType_annotate]
  | unary op token operand tag ih => simp [Expr.annotate, ih]
  | binary op token left right tag ihLeft ihRight => simp [Expr.annotate, ihLeft, ihRight]

theorem Call.hasType_annotate (c : Call) : (c.annotate scopes).HasType Γ ty ↔ c.HasType Γ ty := by
  simp [Call.hasType_iff, Call.annotate, Triple.map, Atom.hasType_annotate, Name.annotate,
    Name.source]

/-- The tag of an atom is the type that the checker finds. -/
theorem Atom.tag_annotate (a : Atom) : (a.annotate scopes).tag = a.typeIn scopes := by
  cases a with
  | name n => rfl
  | literal l => rfl

theorem Expr.tag_annotate (e : Expr) : (e.annotate scopes).tag = e.typeIn scopes := by
  cases e with
  | atom a => exact a.tag_annotate
  | unary op token operand tag => rfl
  | binary op token left right tag => rfl

/-- An atom carries its type. -/
theorem Atom.tagged_annotate {a : Atom} (agree : ∀ use ∈ a.uses, Γ.Agrees scopes use) :
    (a.annotate scopes).Tagged Γ := by
  rw [Atom.Tagged, a.tag_annotate]
  refine .of_iff (Atom.typeIn_ne_unknown agree) fun ty => ?_
  rw [a.hasType_annotate, Atom.hasType_iff agree]

/-- The tag of an expression without problems is its type. -/
theorem Expr.carries_annotate {e : Expr} (agree : ∀ use ∈ e.uses, Γ.Agrees scopes use)
    (noProblems : e.typeProblems scopes = []) :
    Carries (e.annotate scopes).tag ((e.annotate scopes).HasType Γ) := by
  rw [e.tag_annotate]
  refine .of_iff (Expr.typeIn_ne_unknown agree) fun ty => ?_
  rw [e.hasType_annotate, Expr.hasType_iff agree, and_iff_right noProblems]

/-- An accepted expression carries its type at every node. -/
theorem Expr.tagged_annotate {e : Expr} (agree : ∀ use ∈ e.uses, Γ.Agrees scopes use)
    (noProblems : e.typeProblems scopes = []) : (e.annotate scopes).Tagged Γ := by
  have own := Expr.carries_annotate agree noProblems
  induction e with
  | atom a => exact ⟨own, Atom.tagged_annotate agree⟩
  | unary op token operand tag ih =>
    have inner := (List.append_eq_nil_iff.1 noProblems).1
    have agreeOperand : ∀ use ∈ operand.uses, Γ.Agrees scopes use := agree
    exact ⟨own, ih agreeOperand inner (Expr.carries_annotate agreeOperand inner)⟩
  | binary op token left right tag ihLeft ihRight =>
    have agreeLeft : ∀ use ∈ left.uses, Γ.Agrees scopes use := fun use listed =>
      agree use (List.mem_append_left _ listed)
    have agreeRight : ∀ use ∈ right.uses, Γ.Agrees scopes use := fun use listed =>
      agree use (List.mem_append_right _ listed)
    simp only [Expr.typeProblems, List.append_eq_nil_iff] at noProblems
    rcases noProblems with ⟨⟨⟨problemsLeft, _⟩, problemsRight⟩, _⟩
    exact ⟨own, ihLeft agreeLeft problemsLeft (Expr.carries_annotate agreeLeft problemsLeft),
      ihRight agreeRight problemsRight (Expr.carries_annotate agreeRight problemsRight)⟩

/-- An accepted call carries the return type of its callee. -/
theorem Call.carries_annotate {c : Call} (agree : ∀ use ∈ c.uses, Γ.Agrees scopes use)
    (noProblems : c.typeProblems scopes = []) :
    Carries (c.annotate scopes).tag ((c.annotate scopes).HasType Γ) := by
  refine .of_iff (Call.typeIn_ne_unknown agree) fun ty => ?_
  rw [c.hasType_annotate, Call.hasType_iff_typeProblems agree, and_iff_right noProblems]
  rfl

/-- So do the callee and the arguments of an accepted call. -/
theorem Call.tagged_annotate {c : Call} (agree : ∀ use ∈ c.uses, Γ.Agrees scopes use)
    (noProblems : c.typeProblems scopes = []) : (c.annotate scopes).Tagged Γ := by
  refine ⟨Call.carries_annotate agree noProblems, ?_, ?_⟩
  · rcases Call.callee_agrees agree with ⟨type, bound, declared⟩
    have tag : (c.annotate scopes).callee.tag = type.ty := Name.typeIn_eq declared
    rw [tag]
    refine .of_iff type.ty_ne_unknown fun ty => ?_
    rw [show (c.annotate scopes).callee.source = c.callee.source from rfl, bound, Option.map_some,
      Option.some.injEq]
  · intro a isArg
    rw [show (c.annotate scopes).args.toList = _ from Triple.toList_map _ _] at isArg
    rcases List.mem_map.1 isArg with ⟨arg, listed, rfl⟩
    exact Atom.tagged_annotate (Call.arg_agrees agree listed)

/-- An accepted term carries its type at every node. -/
theorem Term.tagged_annotate {term : Term} (agree : ∀ use ∈ term.uses, Γ.Agrees scopes use)
    (noProblems : term.typeProblems scopes = []) : (term.annotate scopes).Tagged Γ := by
  cases term with
  | expr e =>
    refine ⟨?_, Expr.tagged_annotate agree noProblems⟩
    exact (Expr.carries_annotate agree noProblems).congr fun _ => Term.hasType_expr_iff
  | call c =>
    refine ⟨?_, Call.tagged_annotate agree noProblems⟩
    exact (Call.carries_annotate agree noProblems).congr fun _ => Term.hasType_call_iff

/-- An accepted command carries its types at every node. -/
theorem SimpleCommand.tagged_annotate {command : SimpleCommand} {outer : Option Enclosing}
    (agree : ∀ use ∈ command.uses, Γ.Agrees scopes use)
    (noProblems : command.typeProblems scopes outer = []) :
    (command.annotate scopes).Tagged Γ := by
  have target {name : Name} (agrees : Γ.Agrees scopes (.variable name)) :
      (Atom.name (name.annotate scopes .variable)).Tagged Γ := by
    refine Atom.tagged_annotate (a := .name name) fun use listed => ?_
    rw [List.mem_singleton.1 listed]
    exact agrees
  cases command with
  | skip keyword => trivial
  | halt keyword => trivial
  | print keyword value => exact Atom.tagged_annotate agree
  | giveBack keyword value => exact Atom.tagged_annotate agree
  | read name keyword => exact target (agree _ List.mem_cons_self)
  | assign name value =>
    simp only [SimpleCommand.typeProblems, List.append_eq_nil_iff] at noProblems
    exact ⟨target (agree _ List.mem_cons_self),
      Term.tagged_annotate (fun use listed => agree use (List.mem_cons_of_mem _ listed))
        noProblems.1.2⟩
  | call c => exact Call.tagged_annotate agree noProblems

/-- Commands without problems carry the types that the rules give. -/
theorem Commands.tagged_annotate {cs : Commands} {outer : Option Enclosing}
    (agree : ∀ use ∈ cs.uses, Γ.Agrees scopes use)
    (noProblems : cs.typeProblems scopes outer = []) : (cs.annotate scopes outer).Tagged Γ := by
  -- a command is tagged `void` only if nothing inside it has a problem, which is what `own` gives
  have conditionTagged {condition : Expr} (agree : ∀ use ∈ condition.uses, Γ.Agrees scopes use)
      (noProblems : conditionProblems scopes condition = []) :
      (condition.annotate scopes).Tagged Γ :=
    Expr.tagged_annotate agree (List.append_eq_nil_iff.1 noProblems).1
  induction cs with
  | nil => trivial
  | simple command tag rest ih =>
    simp only [Commands.uses, List.mem_append] at agree
    simp only [Commands.typeProblems, List.append_eq_nil_iff] at noProblems
    rcases noProblems with ⟨own, behind⟩
    refine ⟨by simp [commandTag, own], ?_, ?_⟩
    · exact SimpleCommand.tagged_annotate (fun use listed => agree use (.inl listed)) own
    · exact ih (fun use listed => agree use (.inr listed)) behind
  | ifThen keyword condition brackets body tag rest ihBody ihRest =>
    simp only [Commands.uses, List.mem_append] at agree
    simp only [Commands.typeProblems, List.append_eq_nil_iff] at noProblems
    rcases noProblems with ⟨⟨own, inside⟩, behind⟩
    refine ⟨by simp [commandTag, own, inside], ?_, ?_, ?_⟩
    · exact conditionTagged (fun use listed => agree use (.inl (.inl listed))) own
    · exact ihBody (fun use listed => agree use (.inl (.inr listed))) inside
    · exact ihRest (fun use listed => agree use (.inr listed)) behind
  | ifThenElse keyword condition thenBrackets thenBody elseBrackets elseBody tag rest ihThen ihElse
      ihRest =>
    simp only [Commands.uses, List.mem_append] at agree
    simp only [Commands.typeProblems, List.append_eq_nil_iff] at noProblems
    rcases noProblems with ⟨⟨⟨own, insideThen⟩, insideElse⟩, behind⟩
    refine ⟨by simp [commandTag, own, insideThen, insideElse], ?_, ?_, ?_, ?_⟩
    · exact conditionTagged (fun use listed => agree use (.inl (.inl (.inl listed)))) own
    · exact ihThen (fun use listed => agree use (.inl (.inl (.inr listed)))) insideThen
    · exact ihElse (fun use listed => agree use (.inl (.inr listed))) insideElse
    · exact ihRest (fun use listed => agree use (.inr listed)) behind

end Judgements

/-! ## Checking changes tags only -/

section Untagged

variable (scopes : ScopeTree)

/-- Setting tags sets nothing else. -/
theorem Atom.untag_annotate (a : Atom) : (a.annotate scopes).map .untag = a.map .untag := by
  cases a with
  | name n => rfl
  | literal l => rfl

theorem Expr.untag_annotate (e : Expr) : (e.annotate scopes).map .untag = e.map .untag := by
  induction e with
  | atom a => exact congrArg Expr.atom (a.untag_annotate scopes)
  | unary op token operand tag ih => exact congrArg (Expr.unary op token · .unknown) ih
  | binary op token left right tag ihLeft ihRight =>
    exact congrArg₂ (Expr.binary op token · · .unknown) ihLeft ihRight

theorem Call.untag_annotate (c : Call) : (c.annotate scopes).map .untag = c.map .untag := by
  simp only [annotate, map, Triple.map, Atom.untag_annotate]
  rfl

theorem Term.untag_annotate (value : Term) :
    (value.annotate scopes).map .untag = value.map .untag := by
  cases value with
  | expr e => exact congrArg Term.expr (e.untag_annotate scopes)
  | call c => exact congrArg Term.call (c.untag_annotate scopes)

theorem SimpleCommand.untag_annotate (command : SimpleCommand) :
    (command.annotate scopes).map .untag = command.map .untag := by
  cases command with
  | skip keyword => rfl
  | halt keyword => rfl
  | print keyword value => exact congrArg (SimpleCommand.print _) (value.untag_annotate scopes)
  | giveBack keyword value =>
    exact congrArg (SimpleCommand.giveBack _) (value.untag_annotate scopes)
  | read target keyword => rfl
  | assign target value => exact congrArg (SimpleCommand.assign _) (value.untag_annotate scopes)
  | call c => exact congrArg SimpleCommand.call (c.untag_annotate scopes)

/-- Setting the tags of commands leaves all else as it was. -/
theorem Commands.untag_annotate (outer : Option Enclosing) (cs : Commands) :
    (cs.annotate scopes outer).map .untag = cs.map .untag := by
  induction cs with
  | nil => rfl
  | simple command tag rest ih =>
    rw [annotate, map, command.untag_annotate, ih]
    rfl
  | ifThen keyword condition brackets body tag rest ihBody ihRest =>
    rw [annotate, map, condition.untag_annotate, ihBody, ihRest]
    rfl
  | ifThenElse keyword condition thenBrackets thenBody elseBrackets elseBody tag rest ihThen ihElse
      ihRest =>
    rw [annotate, map, condition.untag_annotate, ihThen, ihElse, ihRest]
    rfl

/-- Setting the tags of a function leaves all else as it was. -/
theorem FunctionDecl.untag_annotate (f : FunctionDecl) :
    (f.annotate scopes).map .untag = f.map .untag := by
  have body : ((f.body.annotate scopes (some f.enclosing)).map .untag) = f.body.map .untag :=
    congrArg (Block.mk _) (f.body.commands.untag_annotate scopes _)
  rw [map, annotate, body]
  rfl

/-- Checking changes nothing but tags. -/
theorem Program.untag_annotate (p : Program) : (p.annotate scopes).untag = p.untag := by
  have globals : (p.globals.map VarDecl.annotate).map (VarDecl.map .untag) =
      p.globals.map (VarDecl.map .untag) := by
    rw [List.map_map]
    rfl
  have functions : (p.functions.map (FunctionDecl.annotate scopes)).map (FunctionDecl.map .untag) =
      p.functions.map (FunctionDecl.map .untag) := by
    rw [Forest.map_map]
    exact congrArg (p.functions.map ·) (funext (FunctionDecl.untag_annotate scopes))
  have block : (p.block.annotate scopes none).map .untag = p.block.map .untag :=
    congrArg (Block.mk _) (p.block.commands.untag_annotate scopes none)
  rw [untag, map, annotate, globals, functions, block]
  rfl

end Untagged

/-! ## Blocks of a program -/

/-- The function that a frame belongs to, as the checker knows it. -/
def Frame.enclosing (frame : Frame) : Option Enclosing :=
  frame.owner.map fun owner => ⟨owner.1.lexeme, owner.2.ty⟩

/-- The enclosing function is known by the return type that the frame says. -/
theorem Region.ownedBy (r : Region) : r.typeEnv.OwnedBy r.frame.enclosing := by
  simp [TypeEnv.OwnedBy, Region.typeEnv, Frame.enclosing, Function.comp_def]

namespace Program

variable {p : Program}

/-- The checker looks at all regions. -/
theorem typeProblems_eq_nil_iff (scopes : ScopeTree) (p : Program) :
    p.typeProblems scopes = [] ↔
      ∀ r ∈ p.regions, r.block.commands.typeProblems scopes r.frame.enclosing = [] := by
  rw [typeProblems, List.append_eq_nil_iff, List.flatMap_eq_nil_iff]
  constructor
  · rintro ⟨main, functions⟩ r member
    -- a region is the main block or the body of a function
    rcases region_cases member with rfl | ⟨f, isPlaced, inner, frame, block⟩
    · exact main
    · rw [frame, block]
      exact functions f.value (value_mem_functions isPlaced)
  · intro blocks
    refine ⟨blocks _ List.mem_cons_self, fun f isFunction => ?_⟩
    rw [← p.functions.map_value_place 0 1] at isFunction
    rcases List.mem_map.1 isFunction with ⟨f, isPlaced, rfl⟩
    rcases exists_region_of_function isPlaced with ⟨r, member, inner, frame, block⟩
    have own := blocks r member
    rw [frame, block] at own
    exact own

/-- The checked program has the regions of the program, with all tags set. -/
theorem regions_annotate (scopes : ScopeTree) (p : Program) :
    (p.annotate scopes).regions =
      p.regions.map fun r => { r with block := r.block.annotate scopes r.frame.enclosing } := by
  let tagged (f : Placed FunctionDecl) : Placed FunctionDecl :=
    ⟨f.own, f.outer, f.value.annotate scopes⟩
  have placed : (p.annotate scopes).placed = p.placed.map tagged :=
    Forest.place_map (FunctionDecl.annotate scopes) p.functions 0 1
  have globalFrame : (p.annotate scopes).globalFrame = p.globalFrame := by
    simp only [Program.globalFrame, placed, Forest.roots_map, List.map_map]
    simp [annotate, VarDecl.annotate, Name.withTag, Function.comp_def, tagged,
      FunctionDecl.annotate, FunctionDecl.header]
  let change (frame : Frame) (block : Block) := block.annotate scopes frame.enclosing
  have own (f) : (tagged f).own = (id f).own := rfl
  have header (f) : (tagged f).value.header = (id f).value.header := rfl
  have entries (f) : ((tagged f).value.entries.map fun entry => (entry.1.token, entry.2)) =
      (id f).value.entries.map fun entry => (entry.1.token, entry.2) := rfl
  have body (f inner) : (tagged f).value.body = change ((id f).frame inner) (id f).value.body := rfl
  -- tags occur in no frame, so the functions before and after are two labellings of one forest
  have inner := regionsOf_map own header entries body [p.globalFrame] p.placed
  rw [regions, globalFrame, placed, inner, Forest.map_id]
  simp only [mainRegion, globalFrame]
  rfl

/-- By the unique name of a declaration the checker finds the type of the declaration. -/
theorem declaredType?_unique {d : Declaration} (isDeclaration : d ∈ p.scopeTree.declarations)
    (name : Name) :
    ({ name with text := d.symbol.unique } : Name).declaredType? p.scopeTree d.symbol.kind =
      some d.symbol.ty := by
  have unique := p.numbered_scopeTree.byUnique?_eq_some isDeclaration
  simp [Name.declaredType?, unique]

/-- In a program without scope problems, the checker finds for every name of the resolved program
the type that static scoping gives it. -/
theorem agrees_of_scopeProblems (named : p.WellNamed) (clean : p.scopeProblems p.scopeTree = [])
    {r : Region} (member : r ∈ p.regions) {use : NameUse}
    (listed : use ∈ (p.scopeTree.bindBlock r.frame.number r.block).commands.uses) :
    r.typeEnv.Agrees p.scopeTree use := by
  rcases scopeProblems_eq_nil_iff.1 clean with ⟨fit, _, blocks⟩
  rw [ScopeTree.uses_bindBlock] at listed
  rcases List.mem_map.1 listed with ⟨source, isUse, rfl⟩
  have found := ScopeTree.isSome_referent_of_blockProblems (blocks r member) isUse
  -- the declaration behind the name is the same for both sides, so its type is
  cases source with
  | «variable» name =>
    rcases bindVariable_of_referent named fit member isUse found with
      ⟨d, isDeclaration, entry, bound, view, renamed⟩
    have kind : d.symbol.kind = .variable := (congrArg Prod.fst view).symm
    have type : entry.2.ty = d.symbol.ty := congrArg (fun v => v.2.1) view
    have looked := declaredType?_unique isDeclaration name
    rw [kind, ← type] at looked
    rw [NameUse.mapNames, renamed]
    exact ⟨entry.2, congrArg (Option.map Prod.snd) bound, looked⟩
  | callee name =>
    rcases bindCallee_of_referent named member isUse found with
      ⟨d, isDeclaration, entry, bound, view, renamed⟩
    have kind : d.symbol.kind = .function := (congrArg Prod.fst view).symm
    have type : entry.2.ty = d.symbol.ty := congrArg (fun v => v.2.1) view
    have looked := declaredType?_unique isDeclaration name
    rw [kind, ← type] at looked
    rw [NameUse.mapNames, renamed]
    exact ⟨entry.2, congrArg (Option.map Prod.snd) bound, looked⟩

/-- Renaming keeps a program well typed or ill typed. -/
theorem wellTyped_bindNames (tree : ScopeTree) (p : Program) :
    (p.bindNames tree).WellTyped ↔ p.WellTyped := by
  have block (r : Region) :
      (tree.bindBlock r.frame.number r.block).commands.WellTyped r.typeEnv ↔
        r.block.commands.WellTyped r.typeEnv :=
    Commands.wellTyped_mapNames (fun name => ScopeTree.token_rename name _)
      (fun name => ScopeTree.token_rename name _) _
  rw [WellTyped, WellTyped, regions_bindNames]
  simp only [List.mem_map, forall_exists_index, and_imp, forall_apply_eq_imp_iff₂]
  exact forall_congr' fun r => forall_congr' fun _ => block r

/-- In a program without scope problems, the checker complains about nothing if and only if the
program obeys the rules. -/
theorem typeProblems_bindNames_eq_nil_iff (named : p.WellNamed)
    (clean : p.scopeProblems p.scopeTree = []) :
    (p.bindNames p.scopeTree).typeProblems p.scopeTree = [] ↔ p.WellTyped := by
  rw [typeProblems_eq_nil_iff, ← wellTyped_bindNames p.scopeTree, WellTyped, regions_bindNames]
  refine forall_congr' fun bound => forall_congr' fun isRegion => ?_
  rcases List.mem_map.1 isRegion with ⟨r, member, rfl⟩
  exact Commands.typeProblems_eq_nil_iff r.ownedBy fun _ listed =>
    agrees_of_scopeProblems named clean member listed

/-- The names in the head of a function carry their declared types. -/
theorem headTagged_annotate (scopes : ScopeTree) (f : FunctionDecl) :
    (f.annotate scopes).HeadTagged := by
  refine ⟨rfl, fun entry listed => ?_⟩
  rcases List.mem_append.1 listed with isParam | isLocal
  · rcases List.mem_map.1 isParam with ⟨name, isName, rfl⟩
    rw [show (f.annotate scopes).params.toList = _ from Triple.toList_map _ _] at isName
    rcases List.mem_map.1 isName with ⟨_, _, rfl⟩
    rfl
  · rcases List.mem_map.1 isLocal with ⟨decl, isDecl, rfl⟩
    rw [show (f.annotate scopes).locals.toList = _ from Triple.toList_map _ _] at isDecl
    rcases List.mem_map.1 isDecl with ⟨_, _, rfl⟩
    rfl

/-- In a program without scope problems and type problems, the checker gives all nodes the types of
the rules. -/
theorem tagged_annotate (named : p.WellNamed) (clean : p.scopeProblems p.scopeTree = [])
    (noProblems : (p.bindNames p.scopeTree).typeProblems p.scopeTree = []) :
    ((p.bindNames p.scopeTree).annotate p.scopeTree).Tagged where
  globals decl listed := by
    rcases List.mem_map.1 listed with ⟨_, _, rfl⟩
    rfl
  functions f listed := by
    rw [show ((p.bindNames p.scopeTree).annotate p.scopeTree).functions.toList = _ from
      Forest.toList_map _ _] at listed
    rcases List.mem_map.1 listed with ⟨f, _, rfl⟩
    exact headTagged_annotate _ f
  blocks tagged listed := by
    -- from the tagged region back to the bound one, and from that to the region of the source
    rw [regions_annotate] at listed
    rcases List.mem_map.1 listed with ⟨bound, isRegion, rfl⟩
    have blockProblems := (typeProblems_eq_nil_iff _ _).1 noProblems bound isRegion
    rw [regions_bindNames] at isRegion
    rcases List.mem_map.1 isRegion with ⟨r, member, rfl⟩
    exact Commands.tagged_annotate
      (fun _ isUse => agrees_of_scopeProblems named clean member isUse) blockProblems

end Program

theorem Typing.ok_iff_problems (typing : Typing) : typing.ok = true ↔ typing.problems = [] :=
  List.isEmpty_iff

/-- A program that is read from a text and resolved without diagnostics passes the type checker if
and only if it obeys the typing rules. If it passes, all its nodes are tagged with the types that
the rules give, and nothing but tags has changed. Passing always means having no diagnostics. -/
theorem typecheck_ok_iff_wellTyped {text file : String} {tokens : List Token} {p : Program}
    (read : tokenize text file = .ok tokens) (parsed : parse tokens = .ok p)
    (clean : (resolve p).diagnostics = []) :
    ((typecheck (resolve p).scopes (resolve p).program).ok = true ↔ p.WellTyped) ∧
    ((typecheck (resolve p).scopes (resolve p).program).ok = true →
      (typecheck (resolve p).scopes (resolve p).program).program.Tagged ∧
      (typecheck (resolve p).scopes (resolve p).program).program.untag =
        (resolve p).program.untag) ∧
    ∀ scopes q, (typecheck scopes q).ok = true ↔ (typecheck scopes q).diagnostics = [] := by
  have named := wellNamed_of_parse read parsed
  have noProblems : p.scopeProblems p.scopeTree = [] := List.map_eq_nil_iff.1 clean
  refine ⟨?_, fun ok => ?_, fun scopes q => ?_⟩
  · rw [Typing.ok_iff_problems]
    exact Program.typeProblems_bindNames_eq_nil_iff named noProblems
  · exact ⟨Program.tagged_annotate named noProblems ((Typing.ok_iff_problems _).1 ok),
      Program.untag_annotate _ _⟩
  · rw [Typing.ok_iff_problems, Typing.diagnostics, List.map_eq_nil_iff]

/-- A program with nested functions that passes. -/
theorem wellTyped_nested :
    ∃ tokens p, tokenize nestedSource "nested.spl" = .ok tokens ∧ parse tokens = .ok p ∧
      (resolve p).diagnostics = [] ∧ p.WellTyped ∧
      (typecheck (resolve p).scopes (resolve p).program).program.Tagged := by
  rcases exists_program_nestedSource with ⟨tokens, p, read, parsed, clean, ok, _⟩
  have decided := typecheck_ok_iff_wellTyped read parsed clean
  exact ⟨tokens, p, read, parsed, clean, decided.1.1 ok, (decided.2.1 ok).1⟩

end SplBasic
