import Mathlib.Data.List.Flatten
import SplBasic.Proofs.SourceTexts
import SplBasic.Typing.Check

/-!
# Where problems are reported

Both analyses blame what they find on places of tokens that the program was read from:

* `Program.pos_scopeProblems_sublist` : resolving reports at most one problem for each name, in
  source order,
* `diagnostics_in_source_order` : so in a text its diagnostics stand one behind the other,
* `Program.forall_typeProblems` : checking reports its problems at parts of the program,
* `Program.tokens_bindNames` : resolving keeps the tokens that parts were read from.
-/

namespace SplBasic

/-! ## Problems of names -/

/-- If `g` sees in what is made of an element the same as `h` sees in the element, it sees some of
what `h` sees in all elements, in the same order. -/
theorem map_filterMap_sublist {α β γ : Type} {f : α → Option β} {g : β → γ} {h : α → γ}
    (same : ∀ a b, f a = some b → g b = h a) (xs : List α) :
    ((xs.filterMap f).map g).Sublist (xs.map h) := by
  induction xs with
  | nil => exact .slnil
  | cons a xs ih =>
    cases found : f a with
    | none =>
      rw [List.filterMap_cons_none found]
      exact ih.cons (h a)
    | some b =>
      rw [List.filterMap_cons_some found, List.map_cons, same a b found]
      exact ih.cons_cons (h a)

namespace ScopeTree

variable (tree before : ScopeTree)

/-- An objection to a use is raised at the name. -/
theorem pos_of_useObjection {scope : Nat} {use : NameUse} {l : Located ScopeError}
    (objection : tree.useObjection scope use = some l) : l.pos = use.kinded.name.pos := by
  unfold useObjection at objection
  split at objection
  · cases objection
  · cases objection
    rfl
  · split at objection
    · cases objection
      rfl
    · cases objection
      rfl

/-- Problems of variables are found in the order of their declarations. -/
theorem pos_variableProblems_sublist (scope : Nat) (entries : List (Name × ValueType)) :
    ((tree.variableProblems scope entries).map Located.pos).Sublist
      (entries.map fun entry => entry.1.pos) := by
  have sites : (along (declareVariable · scope) tree entries).map (fun site => site.2.1.pos) =
      entries.map fun entry => entry.1.pos := by
    conv_rhs => rw [← map_snd_along (declareVariable · scope) tree entries, List.map_map]
    rfl
  rw [← sites]
  refine map_filterMap_sublist (fun site l objected => ?_) _
  rcases Option.map_eq_some_iff.1 objected with ⟨e, _, rfl⟩
  rfl

/-- Problems of a block are found in the order of its names. -/
theorem pos_blockProblems_sublist (scope : Nat) (block : Block) :
    ((tree.blockProblems scope block).map Located.pos).Sublist
      (block.commands.uses.map fun use => use.kinded.name.pos) :=
  map_filterMap_sublist (fun _ _ => tree.pos_of_useObjection) _

/-- Problems of a function are found in the order of its names. -/
theorem pos_declProblems_sublist (f : Placed FunctionDecl) :
    ((tree.declProblems before f).map Located.pos).Sublist
      (f.value.names.map fun n => n.name.pos) := by
  have name : (((tree.functionObjection f.outer f.value.name).map
      (Located.mk · f.value.name.pos)).toList.map Located.pos).Sublist [f.value.name.pos] := by
    cases tree.functionObjection f.outer f.value.name with
    | none => exact List.nil_sublist _
    | some e => exact List.Sublist.refl _
  have names : (f.value.names.map fun n => n.name.pos) =
      [f.value.name.pos] ++ (f.value.entries.map fun entry => entry.1.pos)
        ++ f.value.body.commands.uses.map fun use => use.kinded.name.pos := by
    simp [FunctionDecl.names, Function.comp_def]
  rw [names, declProblems, List.map_append, List.map_append]
  exact (name.append (before.pos_variableProblems_sublist f.own f.value.entries)).append
    (tree.pos_blockProblems_sublist f.own f.value.body)

end ScopeTree

/-- Resolving reports at most one problem for each name of a program, in source order. -/
theorem Program.pos_scopeProblems_sublist (tree : ScopeTree) (p : Program) :
    ((p.scopeProblems tree).map Located.pos).Sublist (p.names.map fun n => n.name.pos) := by
  -- problems are listed as names are: globals, the main block, then each function in preorder
  have globals := p.hoisted.pos_variableProblems_sublist ScopeTree.global
    (p.globals.map VarDecl.entry)
  have block := tree.pos_blockProblems_sublist ScopeTree.global p.block
  have functions := List.Sublist.flatMap_right p.sites.toList fun site _ =>
    tree.pos_declProblems_sublist site.1 site.2
  have visited : p.sites.toList.map (fun site => site.2.value) = p.functions.toList := by
    have values := congrArg Forest.toList (Forest.map_value_placed p.functions 0 1)
    rw [← values, show p.functions.place 0 1 = p.placed from rfl, p.placed_eq_sites,
      Forest.map_map, Forest.toList_map]
    rfl
  have names : (p.names.map fun n => n.name.pos) =
      ((p.globals.map VarDecl.entry).map fun entry => entry.1.pos)
        ++ (p.block.commands.uses.map fun use => use.kinded.name.pos)
        ++ p.sites.toList.flatMap fun site => site.2.value.names.map fun n => n.name.pos := by
    rw [Program.names, ← visited]
    simp [Function.comp_def, VarDecl.entry, List.map_flatMap, List.flatMap_map]
  rw [names, Program.scopeProblems, List.map_append, List.map_append, List.map_flatMap]
  exact (globals.append block).append functions

/-- The diagnostics of names in a text stand one behind the other, so that no two of them share a
place, and each of them stands at a name. -/
theorem diagnostics_in_source_order {text file : String} {tokens : List Token} {p : Program}
    (read : tokenize text file = .ok tokens) (parsed : parse tokens = .ok p) :
    ((resolve p).diagnostics.map Diagnostic.pos).Pairwise Position.Before ∧
    ∀ d ∈ (resolve p).diagnostics,
      ∃ t ∈ tokens, (t.kind = .varName ∨ t.kind = .funName) ∧ t.pos = d.pos := by
  have places : (resolve p).diagnostics.map Diagnostic.pos =
      (p.scopeProblems p.scopeTree).map Located.pos := by
    rw [Resolution.diagnostics, List.map_map]
    rfl
  have atNames := p.pos_scopeProblems_sublist p.scopeTree
  rw [← places] at atNames
  refine ⟨(pairwise_before_of_parse read parsed).sublist atNames, ?_⟩
  intro d listed
  rcases List.mem_map.1 (atNames.subset (List.mem_map_of_mem listed)) with ⟨n, isName, here⟩
  rcases token_of_parse parsed n isName with ⟨inText, kind⟩
  refine ⟨n.name.token, inText, ?_, here⟩
  -- the role of a name in the program fixes the kind of its token
  rw [kind]
  cases n.kind with
  | «variable» => exact .inl rfl
  | function => exact .inr rfl

/-- A text with a variable that is declared twice, and below it two variables and a function that
are not declared. -/
def misnamedSource : String :=
  "main num V_x,num V_x begin\nV_y=F_g(V_x,V_z,1) end"

/-- Four names are reported, in the order in which they are read. -/
theorem diagnostics_in_source_order_misnamedSource :
    ∃ tokens p, tokenize misnamedSource "t.spl" = .ok tokens ∧ parse tokens = .ok p ∧
      (resolve p).diagnostics.map Diagnostic.pos = [⟨1, 18⟩, ⟨2, 1⟩, ⟨2, 5⟩, ⟨2, 13⟩] ∧
      ((resolve p).diagnostics.map Diagnostic.pos).Pairwise Position.Before ∧
      ∀ d ∈ (resolve p).diagnostics,
        ∃ t ∈ tokens, (t.kind = .varName ∨ t.kind = .funName) ∧ t.pos = d.pos := by
  have reported : (readProgram? misnamedSource "t.spl").any (fun p =>
      (resolve p).diagnostics.map Diagnostic.pos = [⟨1, 18⟩, ⟨2, 1⟩, ⟨2, 5⟩, ⟨2, 13⟩]) = true := by
    decide +kernel
  rcases exists_of_readProgram? reported with ⟨tokens, p, read, parsed, places⟩
  exact ⟨tokens, p, read, parsed, of_decide_eq_true places,
    diagnostics_in_source_order read parsed⟩

/-! ## Problems of types -/

section TypeProblems

variable (scopes : ScopeTree) {P : Position → Prop}

/-- A mismatch is reported where it is found. -/
theorem forall_mismatch {expected found : Ty} {cause : TypeError} {pos : Position} (here : P pos) :
    ∀ l ∈ mismatch expected found cause pos, P l.pos := by
  unfold mismatch
  split
  · simpa using here
  · simp

/-- A problem of a name is reported at the name. -/
theorem Name.forall_typeProblems {kind : SymbolKind} {n : Name} (here : P n.pos) :
    ∀ l ∈ n.typeProblems scopes kind, P l.pos := by
  unfold typeProblems
  split
  · simp
  · simpa using here

theorem Atom.pos_of_parts {a : Atom} (each : ∀ part ∈ a.parts, P part.token.pos) : P a.pos := by
  cases a with
  | name n => exact each _ List.mem_cons_self
  | literal l => exact each _ List.mem_cons_self

theorem Atom.forall_typeProblems {a : Atom} (each : ∀ part ∈ a.parts, P part.token.pos) :
    ∀ l ∈ a.typeProblems scopes, P l.pos := by
  cases a with
  | name n => exact n.forall_typeProblems scopes (each _ List.mem_cons_self)
  | literal l => simp [typeProblems]

theorem Expr.pos_of_parts {e : Expr} (each : ∀ part ∈ e.parts, P part.token.pos) : P e.pos := by
  cases e with
  | atom a => exact Atom.pos_of_parts each
  | unary op token operand tag => exact each _ List.mem_cons_self
  | binary op token left right tag => exact each _ List.mem_cons_self

/-- The problems of an expression are reported at its parts. -/
theorem Expr.forall_typeProblems {e : Expr} (each : ∀ part ∈ e.parts, P part.token.pos) :
    ∀ l ∈ e.typeProblems scopes, P l.pos := by
  induction e with
  | atom a => exact a.forall_typeProblems scopes each
  | unary op token operand tag ih =>
    rcases List.forall_mem_cons.1 each with ⟨_, inside⟩
    rw [typeProblems, List.forall_mem_append]
    exact ⟨ih inside, forall_mismatch (pos_of_parts inside)⟩
  | binary op token left right tag ihLeft ihRight =>
    rcases List.forall_mem_cons.1 each with ⟨_, inside⟩
    rcases List.forall_mem_append.1 inside with ⟨inLeft, inRight⟩
    simp only [typeProblems, List.forall_mem_append]
    exact ⟨⟨⟨ihLeft inLeft, forall_mismatch (pos_of_parts inLeft)⟩, ihRight inRight⟩,
      forall_mismatch (pos_of_parts inRight)⟩

theorem Call.forall_argumentProblems {c : Call} {position : Nat} {arg : Atom}
    (each : ∀ part ∈ arg.parts, P part.token.pos) :
    ∀ l ∈ c.argumentProblems scopes position arg, P l.pos := by
  rw [argumentProblems, List.forall_mem_append]
  exact ⟨arg.forall_typeProblems scopes each, forall_mismatch (Atom.pos_of_parts each)⟩

/-- The problems of a call are reported at its parts. -/
theorem Call.forall_typeProblems {c : Call} (each : ∀ part ∈ c.parts, P part.token.pos) :
    ∀ l ∈ c.typeProblems scopes, P l.pos := by
  simp only [parts, Triple.toList, List.flatMap_cons, List.flatMap_nil, List.forall_mem_cons,
    List.forall_mem_append] at each
  rcases each with ⟨callee, first, second, third, _⟩
  simp only [typeProblems, List.forall_mem_append]
  exact ⟨⟨⟨c.callee.forall_typeProblems scopes callee, forall_argumentProblems scopes first⟩,
    forall_argumentProblems scopes second⟩, forall_argumentProblems scopes third⟩

theorem Term.forall_typeProblems {value : Term} (each : ∀ part ∈ value.parts, P part.token.pos) :
    ∀ l ∈ value.typeProblems scopes, P l.pos := by
  cases value with
  | expr e => exact Expr.forall_typeProblems scopes each
  | call c => exact Call.forall_typeProblems scopes each

/-- The problems of a command are reported at its parts. -/
theorem SimpleCommand.forall_typeProblems {outer : Option Enclosing} {command : SimpleCommand}
    (each : ∀ part ∈ command.parts, P part.token.pos) :
    ∀ l ∈ command.typeProblems scopes outer, P l.pos := by
  cases command with
  | skip keyword => simp [typeProblems]
  | halt keyword => simp [typeProblems]
  | print keyword value =>
    exact value.forall_typeProblems scopes (List.forall_mem_cons.1 each).2
  | giveBack keyword value =>
    rcases List.forall_mem_cons.1 each with ⟨atKeyword, inValue⟩
    refine List.forall_mem_append.2 ⟨value.forall_typeProblems scopes inValue, ?_⟩
    cases outer with
    | none => exact List.forall_mem_singleton.2 atKeyword
    | some f => exact forall_mismatch (Atom.pos_of_parts inValue)
  | read target keyword =>
    have here : P target.pos := each _ List.mem_cons_self
    rw [typeProblems, List.forall_mem_append]
    exact ⟨target.forall_typeProblems scopes here, forall_mismatch here⟩
  | assign target value =>
    rcases List.forall_mem_cons.1 each with ⟨here, inValue⟩
    simp only [typeProblems, List.forall_mem_append]
    refine ⟨⟨target.forall_typeProblems scopes here, value.forall_typeProblems scopes inValue⟩, ?_⟩
    -- a value of the wrong type is blamed on the target
    split
    · simp
    · exact forall_mismatch here
  | call c => exact Call.forall_typeProblems scopes each

/-- The problems of a condition are reported at its parts. -/
theorem forall_conditionProblems {condition : Expr}
    (each : ∀ part ∈ condition.parts, P part.token.pos) :
    ∀ l ∈ conditionProblems scopes condition, P l.pos := by
  rw [conditionProblems, List.forall_mem_append]
  refine ⟨condition.forall_typeProblems scopes each, ?_⟩
  split
  · simp
  · simpa using Expr.pos_of_parts each

/-- The problems of commands are reported at their parts, in all blocks inside them. -/
theorem Commands.forall_typeProblems {outer : Option Enclosing} {cs : Commands}
    (each : ∀ part ∈ cs.parts, P part.token.pos) :
    ∀ l ∈ cs.typeProblems scopes outer, P l.pos := by
  induction cs with
  | nil => simp [typeProblems]
  | simple command tag rest ih =>
    rcases List.forall_mem_append.1 each with ⟨here, behind⟩
    rw [typeProblems, List.forall_mem_append]
    exact ⟨command.forall_typeProblems scopes here, ih behind⟩
  | ifThen keyword condition brackets body tag rest ihBody ihRest =>
    simp only [parts, List.forall_mem_cons, List.forall_mem_append] at each
    rcases each with ⟨_, ⟨inCondition, inBody⟩, behind⟩
    simp only [typeProblems, List.forall_mem_append]
    exact ⟨⟨forall_conditionProblems scopes inCondition, ihBody inBody⟩, ihRest behind⟩
  | ifThenElse keyword condition thenBrackets thenBody elseBrackets elseBody tag rest ihThen ihElse
      ihRest =>
    simp only [parts, List.forall_mem_cons, List.forall_mem_append] at each
    rcases each with ⟨_, ⟨⟨inCondition, inThen⟩, inElse⟩, behind⟩
    simp only [typeProblems, List.forall_mem_append]
    exact ⟨⟨⟨forall_conditionProblems scopes inCondition, ihThen inThen⟩, ihElse inElse⟩,
      ihRest behind⟩

/-- What all places of the parts of a program have, those have too that checking reports problems
at. -/
theorem Program.forall_typeProblems {p : Program} (each : ∀ part ∈ p.parts, P part.token.pos) :
    ∀ l ∈ p.typeProblems scopes, P l.pos := by
  simp only [parts, List.forall_mem_cons, List.forall_mem_append] at each
  rcases each with ⟨_, _, inMain, inFunctions⟩
  rw [typeProblems, List.forall_mem_append]
  refine ⟨Commands.forall_typeProblems scopes inMain, fun l listed => ?_⟩
  rcases List.mem_flatMap.1 listed with ⟨f, isFunction, inBody⟩
  have inside : ∀ part ∈ f.parts, P part.token.pos := fun part member =>
    inFunctions part (List.mem_flatMap.2 ⟨f, isFunction, member⟩)
  simp only [FunctionDecl.parts, List.forall_mem_cons, List.forall_mem_append] at inside
  exact Commands.forall_typeProblems scopes inside.2.2.2.2 l inBody

end TypeProblems

/-! ## Resolving keeps the tokens -/

/-- The token that a part was read from stays. -/
theorem Part.token_asRead (part : Part) :
    (part.map (.ofNames Name.asRead Name.asRead)).token = part.token := by
  cases part with
  | word t => rfl
  | «variable» n => rfl
  | function n => rfl
  | literal l => rfl

theorem Program.tokens_asRead (p : Program) :
    p.asRead.parts.map Part.token = p.parts.map Part.token := by
  rw [asRead_eq_map, parts_map, List.map_map]
  exact congrArg (p.parts.map ·) (funext Part.token_asRead)

/-- Resolving gives names other texts and keeps the tokens of all parts. -/
theorem Program.tokens_bindNames (tree : ScopeTree) (p : Program) :
    (p.bindNames tree).parts.map Part.token = p.parts.map Part.token := by
  rw [← tokens_asRead, asRead_bindNames, tokens_asRead]

end SplBasic
